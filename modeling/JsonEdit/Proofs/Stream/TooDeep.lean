import JsonEdit.Proofs.Event.Depth
import JsonEdit.Proofs.Stream.Reading
import JsonEdit.Proofs.Stream.Writing

/-!
# Documents that are too deep

Whether a document is too deep has nothing to do with the rules, not even with those that drop or
replace what is deep in it. The edit of one that is too deep ends at the first event that shows it.

* `StopsTooDeep`: a run that ends at the first name or element below the limit;
  **`run_stopsTooDeep`**: the run of a document that is too deep;
* `editStream_spelled`: the stream of a text of a document;
* **`depth_limit_exact`**: events and streams.
-/

namespace JsonEdit

open Keeper

/-! ## Events -/

/-- The run of a new editor ends at the first event that introduces a name or an element below the
depth limit. -/
def StopsTooDeep {σ : Type} [FragmentSink σ] (rules : RuleSet) (d : Nat) (sink : σ)
    (events : List Event) (r : Reply σ) : Prop :=
  ∃ before event after, events = before ++ event :: after ∧
    d + 1 ∉ introduced [] before ∧ d + 1 ∈ event.introduces (nesting [] before) ∧
    let reached := (Editor.new d).run rules sink #[] before
    let last := reached.editor.handle rules reached.sink event
    reached.result = .ok () ∧ last.result = .error (.depthLimitExceeded (d + 1) d) ∧
      r = ⟨last.editor, last.sink, reached.calls ++ last.calls, last.result⟩

section Events

variable {σ : Type} [FragmentSink σ] {rules : RuleSet} {d : Nat}

theorem StopsTooDeep.result {sink : σ} {events : List Event} {r : Reply σ}
    (h : StopsTooDeep rules d sink events r) : r.result = .error (.depthLimitExceeded (d + 1) d) := by
  obtain ⟨before, event, after, -, -, -, -, hlast, rfl⟩ := h
  exact hlast

theorem stopsTooDeep_of_exceeds (hσ : FragmentSink.NeverFails σ) (h : rules.NeverFails) (sink : σ)
    {events : List Event} (he : (Outline.running d []).Exceeds events) :
    StopsTooDeep rules d sink events ((Editor.new d).run rules sink #[] events) := by
  obtain ⟨before, event, after, rfl, hbefore, hevent, o, hrun, hfail⟩ :=
    (Outline.within_nil d).exceeds_at_first he
  refine ⟨before, event, after, rfl, hbefore, hevent, ?_⟩
  intro reached last
  have hreached : (reached.editor.outline, reached.result) = (o, .ok ()) :=
    (Editor.outline_run hσ h before (Editor.new d) sink #[]).trans hrun
  have hok : reached.result = .ok () := congrArg Prod.snd hreached
  have hlast : (last.editor.outline, last.result) = o.handle event := by
    rw [← show reached.editor.outline = o from congrArg Prod.fst hreached]
    exact Editor.outline_handle hσ h reached.editor reached.sink event
  have herror : last.result = .error (.depthLimitExceeded (d + 1) d) :=
    (congrArg Prod.snd hlast).trans hfail
  refine ⟨hok, herror, ?_⟩
  simp only [reached, last] at hok herror ⊢
  simp only [Editor.run_append, hok, Editor.run_cons, herror]

/-- **The run of a document that is too deep**, whatever the rules. -/
theorem run_stopsTooDeep (hσ : FragmentSink.NeverFails σ) (h : rules.NeverFails) (sink : σ)
    {doc : Document} (hd : d < doc.value.depth) : StopsTooDeep rules d sink doc.allEvents
      ((Editor.new d).run rules sink #[] doc.allEvents) := by
  refine stopsTooDeep_of_exceeds hσ h sink ((Outline.fits_allEvents doc).resolve_left fun hrun => ?_)
  have hle := (Outline.accepts_allEvents doc).mp (congrArg Prod.snd hrun)
  omega

theorem run_completes_iff (hσ : FragmentSink.NeverFails σ) (h : rules.NeverFails) (d : Nat)
    (sink : σ) (doc : Document) :
    let r := (Editor.new d).run rules sink #[] doc.allEvents
    r.result = .ok () ∧ r.editor.phase = .finished ↔ doc.value.depth ≤ d := by
  intro r
  rw [← Outline.accepts_allEvents doc]
  have hout : (r.editor.outline, r.result) = (Outline.running d []).run doc.allEvents :=
    Editor.outline_run hσ h doc.allEvents (Editor.new d) sink #[]
  constructor
  · rintro ⟨hok, -⟩
    exact (congrArg Prod.snd hout).symm.trans hok
  · intro ha
    rw [(Outline.fits_allEvents doc).run_of_accepts ha] at hout
    exact ⟨congrArg Prod.snd hout, congrArg (fun r => r.1.phase) hout⟩

end Events

/-! ## Streams -/

/-- **The stream of a text of a document** is one run of the editor on what is read, if the input may
be as long as the text. -/
theorem editStream_spelled {τ ω : Type} [ByteSource τ] [Keeper ω] (rules : RuleSet)
    {options : StreamOptions} {source : τ} {sink : ω} {value : Json} {text : String}
    (hd : Editor.withLimit options.maxDepth = .ok (.new options.maxDepth))
    (hs : SpellsDocument value text.toList) (hr : ByteSource.Reliable source)
    (hp : ByteSource.pending source = utf8 text)
    (hi : ∀ limit, options.maxInputBytes = some limit → (utf8 text).length ≤ limit)
    (hl : limit sink = none) :
    let r := (Editor.new options.maxDepth).run rules "" #[] value.plainZeros.documentEvents
    let run := editStream rules options source sink
    run.calls = r.calls ∧ taken run.sink = taken sink ++ utf8 r.sink ∧
      (r.error? = none → ∃ summary, run.result = .ok summary) ∧
      ∀ e, r.error? = some e → run.result = .error e := by
  intro r run
  have hkept := editStream_kept rules options source sink hd
  have hevents : streamEvents source options.maxInputBytes = value.plainZeros.documentEvents := by
    have hall : Counted.within options.maxInputBytes (utf8 text) = utf8 text := by
      rcases hi' : options.maxInputBytes with _ | limit
      · rfl
      · exact List.take_of_length_le (hi limit hi')
    rw [streamEvents_eq hr, hp, hall]
    exact textEvents_spelled hs
  rw [hevents] at hkept
  have hwritten := hkept.written
  rw [hl] at hwritten
  obtain ⟨hcalls, hok, herror⟩ := hkept.roomy (by simp [hl])
  refine ⟨hcalls, hwritten, fun he => ⟨_, hok he⟩, fun e he => ?_⟩
  rcases herror e he with h | ⟨limit, hlimit, hlt, -⟩
  · exact h
  · rw [hp] at hlt
    exact absurd (hi limit hlimit) (Nat.not_le.mpr hlt)

/-! ## The limit -/

/-- **The depth limit is exact.** Whatever the rules do, a document is edited to its end if it is not
deeper than the limit. Otherwise the edit ends at the first event that introduces a name or an
element below the limit, with the depth of that and the limit. A stream of a text of the document
does the same. -/
theorem depth_limit_exact {rules : RuleSet} (h : rules.NeverFails) {d : Nat}
    (hd : 1 ≤ d ∧ d ≤ DepthLimit.hard) (doc : Document) :
    Editor.withLimit d = .ok (.new d) ∧
    (∀ (σ : Type) [FragmentSink σ], FragmentSink.NeverFails σ → ∀ sink : σ,
      let r := (Editor.new d).run rules sink #[] doc.allEvents
      (r.result = .ok () ∧ r.editor.phase = .finished ↔ doc.value.depth ≤ d) ∧
      (d < doc.value.depth → r.result = .error (.depthLimitExceeded (d + 1) d) ∧
        StopsTooDeep rules d sink doc.allEvents r)) ∧
    ∀ (τ ω : Type) [ByteSource τ] [Keeper ω] (options : StreamOptions) (source : τ) (sink : ω)
      (text : String), options.maxDepth = d → SpellsDocument doc.value text.toList →
      ByteSource.Reliable source → ByteSource.pending source = utf8 text →
      (∀ limit, options.maxInputBytes = some limit → (utf8 text).length ≤ limit) →
      limit sink = none →
      let run := editStream rules options source sink
      ((∃ summary, run.result = .ok summary) ↔ doc.value.depth ≤ d) ∧
      (d < doc.value.depth → run.result = .error (.depthLimitExceeded (d + 1) d) ∧
        ∃ r : Reply String, StopsTooDeep rules d "" doc.value.plainZeros.documentEvents r ∧
          run.calls = r.calls ∧ taken run.sink = taken sink ++ utf8 r.sink) := by
  have hlimit : Editor.withLimit d = .ok (.new d) := by
    rw [Editor.withLimit, DepthLimit.validate, if_neg (by omega), if_neg (by omega)]
    rfl
  refine ⟨hlimit, fun σ _ hσ sink => ⟨run_completes_iff hσ h d sink doc, fun hdeep => ?_⟩, ?_⟩
  · have hstops := run_stopsTooDeep hσ h sink hdeep
    exact ⟨hstops.result, hstops⟩
  rintro τ ω _ _ options source sink text rfl hs hr hp hi hl
  obtain ⟨hcalls, hwritten, hok, herror⟩ := editStream_spelled rules hlimit hs hr hp hi hl
  -- the value that is read is as deep as the document
  let read := Document.ofValue doc.value.plainZeros
  have hdepth : read.value.depth = doc.value.depth := doc.value.depth_plainZeros
  rw [← hdepth]
  have hfails : options.maxDepth < read.value.depth →
      (editStream rules options source sink).result =
          .error (.depthLimitExceeded (options.maxDepth + 1) options.maxDepth) ∧
        StopsTooDeep rules options.maxDepth "" read.allEvents _ := fun hdeep => by
    have hstops := run_stopsTooDeep FragmentSink.neverFails_text h "" hdeep
    refine ⟨herror _ ?_, hstops⟩
    exact Reply.error?_of_error hstops.result
  refine ⟨⟨fun ⟨summary, hsummary⟩ => ?_, fun hle => ?_⟩, fun hdeep => ?_⟩
  · refine Nat.le_of_not_lt fun hdeep => ?_
    cases hsummary.symm.trans (hfails hdeep).1
  · have hcompletes := run_completes_iff FragmentSink.neverFails_text h options.maxDepth "" read
    obtain ⟨hresult, hphase⟩ := hcompletes.mpr hle
    exact hok (Reply.error?_of_finished hresult hphase)
  · exact ⟨(hfails hdeep).1, _, (hfails hdeep).2, hcalls, hwritten⟩

/-- The member of an object that is dropped is one level too deep. -/
theorem dropped_member_too_deep :
    let rules : RuleSet := [⟨.predicate "first" fun path => path.keys == ["0"], .always .remove⟩]
    let value : Json := .arr [.obj [("a", .null)]]
    let r := (Editor.new 2).run rules "" #[] (Document.ofValue value).allEvents
    let source := Pieces.whole (utf8 "[\x7b\"a\":null\x7d]")
    (rules.NeverFails ∧ 1 ≤ 2 ∧ 2 ≤ DepthLimit.hard) ∧
      r.result = .error (.depthLimitExceeded 3 2) ∧
      (editStream rules ⟨2, none, false⟩ source Bounded.unlimited).result =
        .error (.depthLimitExceeded 3 2) := by
  intro rules value r source
  have hrules : rules.NeverFails := RuleSet.neverFails_nil.cons_always _ _
  have hlimits : 1 ≤ 2 ∧ 2 ≤ DepthLimit.hard := by decide
  have hdeep : 2 < value.depth := by decide
  have hspelled : SpellsDocument value "[\x7b\"a\":null\x7d]".toList := by
    rw [show "[\x7b\"a\":null\x7d]" = value.compact by decide +kernel]
    exact spellsDocument_compact value
  obtain ⟨-, hevents, hstream⟩ := depth_limit_exact hrules hlimits (.ofValue value)
  have hrun := (hevents String FragmentSink.neverFails_text "").2 hdeep
  have hread := hstream Pieces Bounded ⟨2, none, false⟩ source Bounded.unlimited _ rfl hspelled
    (Pieces.reliable_whole _) rfl (fun _ he => by cases he) rfl
  exact ⟨⟨hrules, hlimits⟩, hrun.1, (hread.2 hdeep).1⟩

end JsonEdit
