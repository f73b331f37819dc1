import JsonEdit.Proofs.Stream.Writing

/-!
# Truncated input

Where an input is accepted, any first part of it leads to the first part of the run: of what is
written, and of the calls. The exception is a cut that leaves a number of a longer one. What is
left of it then counts, and a handler may be given it.

* `Run.Shortens`: one run has done the first part of another;
* `LeavesNumber`: the exception;
* **`truncation_shortens`**: first parts of an accepted input;
* `truncation_calls_another_number`: in the exception a handler is called with another number.
-/

namespace JsonEdit

/-! ## Runs -/

/-- What one run has written and called is the first part of what the other has. -/
structure Run.Shortens (run run' : Run Summary Bounded) : Prop where
  written : run.sink.taken.toList <+: run'.sink.taken.toList
  calls : run.calls.toList <+: run'.calls.toList

section Runs

variable {τ τ' : Type} [ByteSource τ] [ByteSource τ'] {rules : RuleSet} {options : StreamOptions}
  {source : τ} {source' : τ'}

theorem editStream_endsEarly (h : EndsEarly (streamEvents source options.maxInputBytes)
      (streamEvents source' options.maxInputBytes)) :
    (editStream rules options source Bounded.unlimited).Shortens
      (editStream rules options source' Bounded.unlimited) :=
  ⟨(editStream_shorter h Bounded.unlimited).1, (editStream_shorter h Bounded.unlimited).2⟩

end Runs

/-! ## Cuts -/

/-- After the first bytes a scanner is in a number, and it takes all the further ones as more of
that number. -/
def StaysInNumber (before more : List UInt8) : Prop :=
  ∃ read read', ((Scanner.new none).pushed before).2.mode = .number read ∧
    read.pushAll? more = some read' ∧
    ((Scanner.new none).pushed (before ++ more)).2.mode = .number read'

/-- The input goes on after these bytes in a number that is complete so far. -/
def LeavesNumber (before input : List UInt8) : Prop :=
  ∃ b rest, input = before ++ b :: rest ∧ ((Scanner.new none).pushed before).2.CutsNumber b

theorem within_cases (limit : Option Nat) {before bytes : List UInt8} (h : before <+: bytes) :
    Counted.within limit before = Counted.within limit bytes ∨
      Counted.within limit before = before ∧
        ∃ b rest, Counted.within limit bytes = before ++ b :: rest := by
  obtain ⟨after, rfl⟩ := h
  cases after with
  | nil => exact .inl (by rw [List.append_nil])
  | cons b rest =>
    cases limit with
    | none => exact .inr ⟨rfl, b, rest, rfl⟩
    | some limit =>
      simp only [Counted.within]
      rcases Nat.lt_or_ge before.length limit with hlt | hle
      · refine .inr ⟨List.take_of_length_le (by omega), b,
          rest.take (limit - before.length - 1), ?_⟩
        obtain ⟨n, hn⟩ : ∃ n, limit - before.length = n + 1 := ⟨limit - before.length - 1, by omega⟩
        rw [List.take_append, List.take_of_length_le (by omega : before.length ≤ limit), hn]
        rfl
      · exact .inl (List.take_append_of_le_length hle).symm

theorem length_within (limit : Option Nat) (bytes : List UInt8) :
    (Counted.within limit bytes).length ≤ bytes.length := by
  cases limit with
  | none => exact Nat.le_refl _
  | some limit => exact List.length_take_le' limit bytes

theorem within_of_length_le {limit : Option Nat} {bytes bytes' : List UInt8}
    (h : bytes.length ≤ (Counted.within limit bytes').length) :
    Counted.within limit bytes = bytes := by
  cases limit with
  | none => rfl
  | some limit =>
    simp only [Counted.within, List.length_take] at h ⊢
    exact List.take_of_length_le (by omega)

/-- **First parts of an accepted input.** Unless the cut leaves a number of a longer one, less is
written and fewer calls are made, but the same up to there. If it does, the rest of the number
counts as left out, and the calls differ in the number only. -/
theorem truncation_shortens {τ τ' : Type} [ByteSource τ] [ByteSource τ'] (rules : RuleSet)
    (options : StreamOptions) (whole : τ) (cut : τ') (hw : ByteSource.Reliable whole)
    (hc : ByteSource.Reliable cut) (hp : ByteSource.pending cut <+: ByteSource.pending whole)
    {summary : Summary}
    (ha : (editStream rules options whole Bounded.unlimited).result = .ok summary) :
    let input := Counted.within options.maxInputBytes (ByteSource.pending whole)
    let before := ByteSource.pending cut
    let long := editStream rules options whole Bounded.unlimited
    let short := editStream rules options cut Bounded.unlimited
    (¬ LeavesNumber before input → short.Shortens long) ∧
      (LeavesNumber before input →
        (∃ more rest, input = before ++ more ++ rest ∧ StaysInNumber before more ∧
          Separated rest ∧ short.Shortens
            (editStream rules options (Pieces.whole (before ++ rest)) Bounded.unlimited)) ∧
        short.calls.toList.map Call.blind <+: long.calls.toList.map Call.blind) := by
  intro input before long short
  have hf := faultless_of_accepted ha
  have hlong := streamEvents_eq hw options.maxInputBytes
  have hshort := streamEvents_eq hc options.maxInputBytes
  rcases within_cases options.maxInputBytes hp with hsame | ⟨hbefore, b, rest, hinput⟩
  · -- all that may be read is there
    refine ⟨fun _ => editStream_endsEarly ?_, ?_⟩
    · rw [hshort, hlong, hsame]
      exact .refl _
    · rintro ⟨b, rest, hinput, -⟩
      have hlen := congrArg List.length (hsame.trans hinput)
      have hle : _ ≤ before.length := length_within options.maxInputBytes (ByteSource.pending cut)
      rw [List.length_append, List.length_cons] at hlen
      omega
  rw [hinput] at hlong
  rw [hbefore] at hshort
  rw [hlong] at hf
  refine ⟨fun hn => editStream_endsEarly ?_, ?_⟩
  · rw [hshort, hlong]
    exact Scanner.cut_endsEarly hf fun hcut => hn ⟨b, rest, hinput, hcut⟩
  · rintro ⟨b', rest', hinput', hcut⟩
    cases List.append_cancel_left (hinput.symm.trans hinput')
    obtain ⟨more, after, read, read', hsplit, hm, hmore, hm', hsep, hends, given, value, value',
      last, tail, hfirst, hl, hall⟩ := Scanner.cut_endsEarly_number hf hcut
    rw [hsplit, ← List.append_assoc] at hinput
    refine ⟨⟨more, after, hinput, ⟨read, read', hm, hmore, hm'⟩, hsep, editStream_endsEarly ?_⟩, ?_⟩
    · have hle : (before ++ after).length ≤
          (Counted.within options.maxInputBytes (ByteSource.pending whole)).length := by
        rw [hinput]
        simp only [before, List.length_append]
        omega
      have hleft := streamEvents_eq (Pieces.reliable_whole (before ++ after)) options.maxInputBytes
      rw [show ByteSource.pending (Pieces.whole (before ++ after)) = before ++ after from rfl,
        within_of_length_le hle] at hleft
      rw [hshort, hleft]
      exact hends
    · rcases withLimit_cases options.maxDepth with ⟨fault, hd⟩ | hd
      · rw [editStream_refused hd] at ha
        cases ha
      rw [(editStream_unlimited rules options whole hd).1,
        (editStream_unlimited rules options cut hd).1, hshort, hlong, hfirst, hall]
      exact Editor.run_scalar_sites rules given value value' hl tail _ ""

/-- A rule for every node, which keeps it. -/
def keepsAll : RuleSet := [⟨.predicate "every" fun _ => true, .always .pass⟩]

theorem accepted_of_error? {rules : RuleSet} {options : StreamOptions} {source : Pieces}
    {editor : Editor} (hd : Editor.withLimit options.maxDepth = .ok editor)
    (he : (editor.run rules "" #[] (streamEvents source options.maxInputBytes)).error? = none) :
    ∃ summary, (editStream rules options source Bounded.unlimited).result = .ok summary :=
  ⟨_, (editStream_unlimited rules options source hd).2.2.1 he⟩

/-- An object cut off behind a number and before the comma. -/
theorem truncated_member_shortens :
    let whole := Pieces.whole (utf8 "\x7b\"a\":[12,null]\x7d")
    let cut := Pieces.whole (utf8 "\x7b\"a\":[12")
    (∃ summary, (editStream keepsAll .standard whole Bounded.unlimited).result = .ok summary) ∧
      ByteSource.pending cut <+: ByteSource.pending whole ∧
      (editStream keepsAll .standard cut Bounded.unlimited).Shortens
        (editStream keepsAll .standard whole Bounded.unlimited) := by
  intro whole cut
  have hp : ByteSource.pending cut <+: ByteSource.pending whole := by decide
  have ha : ∃ summary,
      (editStream keepsAll .standard whole Bounded.unlimited).result = .ok summary := by
    refine accepted_of_error? rfl ?_
    rw [show StreamOptions.standard.maxInputBytes = none from rfl,
      streamEvents_eq (Pieces.reliable_whole _)]
    decide +kernel
  have hcomma : ¬ LeavesNumber (ByteSource.pending cut) (ByteSource.pending whole) := by
    rintro ⟨b, rest, he, read, number, -, -, hpush⟩
    have hb : (ByteSource.pending whole)[8]? = some b := by rw [he]; rfl
    have hb44 : some b = some 44 := hb.symm.trans (by decide)
    cases hb44
    rw [read.push?_of_separator (by decide)] at hpush
    cases hpush
  obtain ⟨summary, ha⟩ := ha
  exact ⟨⟨summary, ha⟩, hp, (truncation_shortens keepsAll .standard whole cut
    (Pieces.reliable_whole _) (Pieces.reliable_whole _) hp ha).1 hcomma⟩

/-- **A cut in a number calls a handler with another number**: `[12]` cut off behind the `1`. -/
theorem truncation_calls_another_number :
    ¬ ∀ (rules : RuleSet) (options : StreamOptions) (whole cut : Pieces) (summary : Summary),
      rules.NeverFails →
      (editStream rules options whole Bounded.unlimited).result = .ok summary →
      ByteSource.Reliable cut → cut.bytes <+: whole.bytes → cut.bytes ≠ whole.bytes →
      (editStream rules options cut Bounded.unlimited).Shortens
        (editStream rules options whole Bounded.unlimited) := by
  intro h
  let whole := Pieces.whole (utf8 "[12]")
  let cut := Pieces.whole (utf8 "[1")
  have hwhole : streamEvents whole none =
      told ((Scanner.new none).remaining .complete (utf8 "[12]")) :=
    streamEvents_eq (Pieces.reliable_whole _) none
  have hcut : streamEvents cut none =
      told ((Scanner.new none).remaining .complete (utf8 "[1")) :=
    streamEvents_eq (Pieces.reliable_whole _) none
  obtain ⟨summary, ha⟩ : ∃ summary,
      (editStream keepsAll .standard whole Bounded.unlimited).result = .ok summary := by
    refine accepted_of_error? rfl ?_
    rw [show StreamOptions.standard.maxInputBytes = none from rfl, hwhole]
    decide +kernel
  have hcalls := (h keepsAll .standard whole cut summary
    (RuleSet.neverFails_nil.cons_always _ _) ha (Pieces.reliable_whole _) (by decide)
    (by decide)).calls
  rw [(editStream_unlimited keepsAll .standard cut rfl).1,
    (editStream_unlimited keepsAll .standard whole rfl).1,
    show StreamOptions.standard.maxInputBytes = none from rfl, hcut, hwhole] at hcalls
  have hvalues := hcalls.map fun call => call.node.value.map Json.compact
  revert hvalues
  decide +kernel

end JsonEdit
