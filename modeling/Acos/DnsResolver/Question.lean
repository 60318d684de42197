import Acos.DnsResolver.Request

/-! What `build_dns_question` leaves in `question->domain`, and how a reader gets the labels
back. -/
namespace Acos.DnsResolver
open Acos.CString

/-- The array holds the labels of the name, each behind its length, and zeros after them; so a
reader finds the labels, and no other name has the same array. -/
theorem build_dns_question_labels (labels : List Bytes) (h : ValidName labels) :
    ∃ question n, buildDnsQuestion (dotted labels) = some question ∧
      question.domain = encodeName labels ++ 0 :: List.replicate n 0 ∧
      question.domain.length = 1000 ∧
      parseLabels question.domain.length question.domain = some (labels, List.replicate n 0) ∧
      ∀ labels' question', ValidName labels' → buildDnsQuestion (dotted labels') = some question' →
        question'.domain = question.domain → labels' = labels := by
  have hdecode : ∀ {names : List Bytes}, ValidName names → ∃ n,
      encodeName names ++ List.replicate (1000 - (encodeName names).length) 0 =
        encodeName names ++ 0 :: List.replicate n 0 ∧
      parseLabels 1000 (encodeName names ++ 0 :: List.replicate n 0) =
        some (names, List.replicate n 0) := by
    intro names hnames
    have hlen := encodeName_length_le hnames
    have hcount := labels_length_le names
    refine ⟨999 - (encodeName names).length, ?_, ?_⟩
    · rw [← List.replicate_succ]
      congr 2
      omega
    · exact parseLabels_encodeName _ hnames.short (by omega)
  obtain ⟨n, hdomain, hparse⟩ := hdecode h
  have hlen : (encodeName labels ++ 0 :: List.replicate n 0).length = 1000 := by
    have hle := encodeName_length_le h
    rw [← hdomain, List.length_append, List.length_replicate]
    omega
  refine ⟨_, n, buildDnsQuestion_valid h, hdomain, by rw [hdomain]; exact hlen, ?_, ?_⟩
  · dsimp only
    rw [hdomain, hlen]
    exact hparse
  · intro labels' question' h' hquestion' hsame
    obtain ⟨n', hdomain', hparse'⟩ := hdecode h'
    rw [buildDnsQuestion_valid h', Option.some.injEq] at hquestion'
    rw [← hquestion'] at hsame
    dsimp only at hsame
    rw [hdomain, hdomain'] at hsame
    rw [hsame, hparse] at hparse'
    exact (congrArg Prod.fst (Option.some.inj hparse')).symm

theorem build_dns_question_short_name :
    ∃ question n, buildDnsQuestion (dotted shortName) = some question ∧
      question.domain = encodeName shortName ++ 0 :: List.replicate n 0 ∧
      question.domain.length = 1000 ∧
      parseLabels question.domain.length question.domain = some (shortName, List.replicate n 0) ∧
      ∀ labels' question', ValidName labels' → buildDnsQuestion (dotted labels') = some question' →
        question'.domain = question.domain → labels' = shortName :=
  build_dns_question_labels shortName shortName_valid

end Acos.DnsResolver
