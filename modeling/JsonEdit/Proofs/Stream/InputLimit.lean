import JsonEdit.Proofs.Stream.Writing

/-!
# The limit of the input

A limit cuts the input off. Where the bytes before it make up a document the run succeeds, and what
comes after them goes unnoticed; only a run that fails looks whether the input went on.

* `streamEvents_limit`: with a limit, the events are those of the bytes before it;
* **`limit_cuts_input`**: the run is the one on these bytes, or it fails as that one does and
  reports the limit;
* `limit_not_enforced`: an input longer than its limit can be edited with success.
-/

namespace JsonEdit

variable {τ : Type} [ByteSource τ]

/-- **With a limit the events are those of the bytes before it.** -/
theorem streamEvents_limit {source : τ} (hr : ByteSource.Reliable source) (limit : Nat) :
    streamEvents source (some limit) =
      streamEvents (Pieces.whole ((ByteSource.pending source).take limit)) none := by
  rw [streamEvents_eq hr, streamEvents_eq (Pieces.reliable_whole _)]
  rfl

theorem endRun_congr {τ τ' ω : Type} [ByteSink ω] {source : Counted τ} {source' : Counted τ'}
    {r : Reply (Writer (Buffered ω))} (hl : source'.limit = none)
    (hc : r.error? = none → source.bytesRead = source'.bytesRead) :
    endRun source r = endRun source' r ∨
      ∃ e limit, (endRun source' r).result = .error e ∧ source.exceeded = true ∧
        source.limit = some limit ∧
        endRun source r =
          { endRun source' r with result := .error (.limit (.inputTooLong limit)) } := by
  rcases he : r.error? with _ | e
  · left
    simp only [endRun, he, endComplete, hc he]
  · have hkeep : (endFailed source' r.sink e).1 = .error e := by
      rcases endFailed_result source' r.sink e with h | ⟨limit, -, hl', -⟩
      · exact h
      · rw [hl] at hl'
        cases hl'
    simp only [endRun, he]
    rcases endFailed_result source r.sink e with h | ⟨limit, hx, hlim, h⟩
    · left
      rw [h, hkeep]
      rfl
    · right
      refine ⟨e, limit, hkeep, hx, hlim, ?_⟩
      rw [h]
      rfl

/-- **A limit cuts the input off.** The run is the one on the bytes before the limit. If that one
fails, the limit may be reported instead of its error, and then the input is longer. -/
theorem limit_cuts_input {ω : Type} [ByteSink ω] (rules : RuleSet) (options : StreamOptions)
    (source : τ) (sink : ω) (limit : Nat) (hr : ByteSource.Reliable source) :
    let run := editStream rules { options with maxInputBytes := some limit } source sink
    let cut := editStream rules { options with maxInputBytes := none }
      (Pieces.whole ((ByteSource.pending source).take limit)) sink
    run = cut ∨ ∃ e, cut.result = .error e ∧ limit < (ByteSource.pending source).length ∧
      run = { cut with result := .error (.limit (.inputTooLong limit)) } := by
  intro run cut
  rcases withLimit_cases options.maxDepth with ⟨fault, hd⟩ | hd
  · left
    have hrun : run = _ := editStream_refused hd
    have hcut : cut = _ := editStream_refused hd
    rw [hrun, hcut]
  obtain ⟨s₁, hl₁, hb₁, hread₁, hrun⟩ :=
    editStream_eq rules { options with maxInputBytes := some limit } source sink hd
  obtain ⟨s₂, hl₂, -, hread₂, hcut⟩ :=
    editStream_eq rules { options with maxInputBytes := none }
      (Pieces.whole ((ByteSource.pending source).take limit)) sink hd
  simp only at hread₁ hrun hread₂ hcut
  rw [← streamEvents_limit hr] at hread₂ hcut
  rw [(Counted.drain_new hr (some limit)).1] at hread₁
  rw [show run = _ from hrun, show cut = _ from hcut]
  have hcount := (Counted.drain_new (Pieces.reliable_whole
    ((ByteSource.pending source).take limit)) none).1
  rw [hcount] at hread₂
  rcases endRun_congr hl₂ fun he => (hread₁ he).trans (hread₂ he).symm with
    h | ⟨e, limit', he, hx, hl', h⟩
  · exact .inl h
  · obtain ⟨limit'', hl'', hlt⟩ := hb₁.exceeded hx
    rw [hl₁] at hl' hl''
    cases hl'
    cases hl''
    exact .inr ⟨e, he, hlt, h⟩

/-- An array cut off in the middle, where the limit is what is reported. -/
theorem limit_cuts_array :
    let source := Pieces.whole (utf8 "[1,2]")
    let run := editStream [] { StreamOptions.standard with maxInputBytes := some 3 } source
      Bounded.unlimited
    let cut := editStream [] StreamOptions.standard (Pieces.whole (utf8 "[1,")) Bounded.unlimited
    ByteSource.Reliable source ∧
      (run = cut ∨ ∃ e, cut.result = .error e ∧ 3 < 5 ∧
        run = { cut with result := .error (.limit (.inputTooLong 3)) }) := by
  intro source run cut
  have hr : ByteSource.Reliable source := Pieces.reliable_whole _
  exact ⟨hr, limit_cuts_input [] StreamOptions.standard source Bounded.unlimited 3 hr⟩

/-- **The limit is not enforced**: an array and one byte after it are edited with success within
the length of the array. -/
theorem limit_not_enforced :
    ¬ ∀ (rules : RuleSet) (options : StreamOptions) (source : Pieces) (sink : Bounded)
      (limit : Nat), options.maxInputBytes = some limit →
        limit < (ByteSource.pending source).length →
        ∀ summary, (editStream rules options source sink).result ≠ .ok summary := by
  intro h
  let options : StreamOptions := { StreamOptions.standard with maxInputBytes := some 5 }
  let source := Pieces.whole (utf8 "[1,2]x")
  have hrun := (editStream_unlimited [] options source rfl).2.2.1
  refine h [] options source Bounded.unlimited 5 rfl (by decide) _ (hrun ?_)
  have he : streamEvents source (some 5) =
      told ((Scanner.new none).remaining .complete (utf8 "[1,2]")) := by
    rw [streamEvents_eq (Pieces.reliable_whole _)]
    rfl
  rw [show options.maxInputBytes = some 5 from rfl, he]
  decide

end JsonEdit
