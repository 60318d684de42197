import Acos.AsmMergesort.Correct
import Acos.AtomicList.Correct
import Acos.AtomicStack.Correct
import Acos.BitsetCalc.Correct
import Acos.BlendImages.Correct
import Acos.CharFilter.Correct
import Acos.ClassLoader.Correct
import Acos.CopyStream.Correct
import Acos.CountWords.Correct
import Acos.CreateJoin.Correct
import Acos.DnsResolver.Answers
import Acos.DnsResolver.Reply
import Acos.DnsResolver.Request
import Acos.EpollServer.Healthy
import Acos.EpollServer.Prefix
import Acos.EqSolution.Correct
import Acos.ExecCgi.Correct
import Acos.FactorOut.Correct
import Acos.FileSort.Compare
import Acos.FileSort.Sizes
import Acos.FindSubstrings.Correct
import Acos.FloatClassify.Correct
import Acos.GccOutput.Correct
import Acos.HttpGet.Correct
import Acos.HttpPost.Correct
import Acos.HttpServer.AcceptLoop
import Acos.HttpServer.Children
import Acos.HttpServer.Chunks
import Acos.HttpServer.Containment
import Acos.HttpServer.RequestHead
import Acos.HttpServer.Response
import Acos.IcmpPing.Correct
import Acos.JitCompile.Correct
import Acos.JitCompile.Discipline
import Acos.JitCompile.Room
import Acos.MakeSpiral.Correct
import Acos.MergeFs.FindFile
import Acos.MergeFs.Read
import Acos.MergeFs.Readdir
import Acos.MergeFs.Session
import Acos.MutexRing.Correct
import Acos.ParallelSum.Correct
import Acos.PathNormal.Overflow
import Acos.PathNormal.Rooted
import Acos.PingPong.Correct
import Acos.Pipeline.Correct
import Acos.PrimeCondvar.Correct
import Acos.PrimeSentinel.Correct
import Acos.PrintList.Traversal
import Acos.PrintNumbers.Correct
import Acos.ProcessMap.Correct
import Acos.ReadFds.Correct
import Acos.ReadFilterWrite.Correct
import Acos.ReverseLines.Correct
import Acos.ReversePrint.Correct
import Acos.SimpleFs.Correct
import Acos.SimpleFs.Session
import Acos.Smokers.Shutdown
import Acos.SwapAlloc.Correct
import Acos.SwapAlloc.Mapping
import Acos.Timeout.Correct
import Acos.ToHand.Correct
import Acos.Utf8Count.Correct
