import Acos.Lib.CString

/-! Reading a request in `inf16-2_posix_sockets_http-server-2/main.c`. -/
namespace Acos.HttpServer
open Acos.CString

def MAX_FILENAME_LEN : ℕ := 300
def MAX_FILEPATH_LEN : ℕ := 500
def MAX_REQUEST_LEN : ℕ := 5000

/-- The size of the buffer that `read_request` hands to `recv`. -/
def buffer_size : ℕ := 512

def crlfcrlf : Bytes := [13, 10, 13, 10]

/-- `read_request` from the loop on, with `text` read so far: its value and the text. The
list holds the outcomes of `recv` (`none` is `-1`); the result is `none` while it waits. -/
def readRequest : List (Option Bytes) → Bytes → Option (ℤ × Bytes)
  | [], _ => none
  | none :: _, text => some (-1, text)
  | some [] :: _, text => some (text.length, text)
  | some (b :: bs) :: chunks, text =>
    let chunk := b :: bs
    if text.length + chunk.length > MAX_REQUEST_LEN - 2 then some (-1, text)
    else
      let text' := text ++ strncpy chunk
      if 4 ≤ text'.length ∧ text'.drop (text'.length - 4) = crlfcrlf then
        some (text'.length, text')
      else readRequest chunks text'

/-- `read_request_head`: the file name it copies, `none` where it returns `-1`. -/
def readRequestHead (request_buffer : Bytes) : Option Bytes :=
  match strtok [32] (cString request_buffer) with
  | none => none
  | some (token, rest) =>
    if strncmpEq [71, 69, 84] token 3 then
      match strtok [32] rest with
      | none => none
      | some (filename, rest) =>
        if filename.length ≤ 1 then none
        else
          match strtok [32, 13, 10] rest with
          | none => none
          | some (protocol, _) =>
            if strncmpEq [72, 84, 84, 80, 47, 49, 46, 49] protocol 8 then some filename else none
    else none

end Acos.HttpServer
