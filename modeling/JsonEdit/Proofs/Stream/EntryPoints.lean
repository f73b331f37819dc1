import JsonEdit.Proofs.Stream.Writing
import JsonEdit.Proofs.Text.Utf8
import JsonEdit.Stream.Request

/-!
# The ways to run an edit

A text may be edited as a whole. It may also be read in pieces and written through a buffer, and a
request may ask for that. All of this is the same edit: with the same calls it succeeds, or fails
with the same error, and what has been written by then is the same.

* `Editor.Tallies`, `tallies_run`: the editor counts the bytes that it gives out;
* `fragmentsOf`: the fragments of a text;
* `SameEdit`: another way to edit a text; `editStream_sameEdit`: by way of a stream;
* **`ways_to_edit_agree`**.
-/

namespace JsonEdit

open Keeper

/-! ## Counting what is given out -/

namespace Editor

variable {rules : RuleSet}

/-- So many bytes have been given out as the text has. -/
def Tallies (ed : Editor) (text : String) : Prop :=
  ed.stats.bytesEmitted = text.utf8ByteSize

/-- **The editor counts the bytes that it gives out**, one step at a time. -/
theorem keeps_tallies : Keeps rules Tallies where
  tick _ _ h := h
  perform ed text step h := by
    have hb := (advance_unchanged rules ed step).2.2
    rcases ha : ed.advance rules step with ⟨ed', calls, e | fragment⟩
    · rw [perform_of_error ha]
      rw [ha] at hb
      exact hb.trans h
    · rw [perform_of_ok FragmentSink.neverFails_text ha, FragmentSink.put_text]
      rw [ha] at hb
      simp only [Tallies, sent]
      split_ifs with hf
      · rw [String.isEmpty_iff.mp hf, String.append_empty]
        exact hb.trans h
      · rw [String.utf8ByteSize_append, ← h, ← hb]
        rfl

theorem tallies_run (rules : RuleSet) (events : List Event) (maxDepth : Nat) (calls : Array Call) :
    let r := (Editor.new maxDepth).run rules "" calls events
    r.editor.Tallies r.sink := run_keeps keeps_tallies events _ _ _ rfl

end Editor

/-! ## Fragments -/

/-- The fragments that a text is edited to, up to the first error. -/
def fragmentsOf (rules : RuleSet) (text : String) : List String :=
  ((Editor.new DepthLimit.standard).run rules (#[] : Array String) #[] (textEvents text)).sink.toList

theorem editText_fragments (rules : RuleSet) (text : String) :
    (editText rules text).sink = String.join (fragmentsOf rules text) := by
  have halike : FragmentSink.Alike fun (all : String) (fragments : Array String) =>
      all = String.join fragments.toList := by
    rintro _ fragments fragment rfl
    exact ⟨rfl, by simp [String.join_append]⟩
  have hstart : "" = String.join (#[] : Array String).toList := rfl
  rw [editText_eq]
  exact (Editor.run_alike rules halike (textEvents text) _ #[] hstart).sink

/-! ## The same edit -/

/-- What another way to edit a text comes to: its result, the calls and the bytes written. The
bytes read are those of the text. -/
structure SameEdit (text : String) (direct : Run Stats String)
    (result : Except EditError Summary) (calls : Array Call) (written : List UInt8) : Prop where
  result : result = direct.result.map fun stats => ⟨stats, (utf8 text).length⟩
  calls : calls = direct.calls
  written : written = utf8 direct.sink

/-- The usual options; each fragment may be passed on at once. -/
def StreamOptions.flushing (flushEach : Bool) : StreamOptions :=
  { StreamOptions.standard with flushEach }

variable {τ ω : Type} [ByteSource τ] [Keeper ω]

theorem editStream_sameEdit (rules : RuleSet) {text : String} (flushEach : Bool) {source : τ}
    {sink : ω} (hr : ByteSource.Reliable source) (hp : ByteSource.pending source = utf8 text)
    (hs : taken sink = []) (hl : limit sink = none) :
    let run := editStream rules (.flushing flushEach) source sink
    SameEdit text (editText rules text) run.result run.calls (taken run.sink) := by
  intro run
  obtain ⟨hcalls, hwritten, hresult⟩ := editStream_bytes rules flushEach
    (rfl : Editor.withLimit DepthLimit.standard = .ok (.new DepthLimit.standard)) hr hs hl
  rw [hp] at hcalls hwritten hresult
  rw [editText_eq]
  refine ⟨hresult.trans ?_, hcalls, hwritten⟩
  rw [← textEvents]
  simp only
  cases ((Editor.new DepthLimit.standard).run rules "" #[] (textEvents text)).error? <;> rfl

/-- **All ways to edit a text agree.** The text itself is the fragments in a row, those before the
first error if there is one, and a complete edit has counted its bytes. -/
theorem ways_to_edit_agree (rules : RuleSet) (text : String) (flushEach : Bool) (source : τ)
    (sink : ω) (hr : ByteSource.Reliable source) (hp : ByteSource.pending source = utf8 text)
    (hs : taken sink = []) (hl : limit sink = none) :
    let direct := editText rules text
    let options := StreamOptions.flushing flushEach
    let run := editStream rules options source sink
    SameEdit text direct run.result run.calls (taken run.sink) ∧
      (∀ (size : Option Nat) (files : Files) (stdin : List UInt8),
        let request : Request :=
          ⟨.source ⟨utf8 text, size, none⟩, .sink Bounded.unlimited, options⟩
        let done := request.execute rules files stdin
        SameEdit text direct done.result done.calls done.output.taken.toList ∧
          done.files = files) ∧
      direct.sink = String.join (fragmentsOf rules text) ∧
      ∀ stats, direct.result = .ok stats → stats.bytesEmitted = (utf8 direct.sink).length := by
  intro direct options run
  refine ⟨editStream_sameEdit rules flushEach hr hp hs hl, fun size files stdin => ?_,
    editText_fragments rules text, fun stats hok => ?_⟩
  · exact ⟨editStream_sameEdit rules flushEach (Pieces.reliable (utf8 text) size) rfl rfl rfl, rfl⟩
  · have htally := Editor.tallies_run rules (textEvents text) DepthLimit.standard #[]
    rw [show direct = _ from editText_eq rules text] at hok ⊢
    simp only at hok ⊢
    split at hok
    · cases hok
      rw [length_utf8]
      exact htally
    · cases hok

/-- A text with a character of two bytes, read byte by byte. -/
theorem ways_to_edit_agree_bytewise :
    let source : Pieces := ⟨utf8 "[\"é\"]", some 1, none⟩
    ByteSource.Reliable source ∧ ByteSource.pending source = utf8 "[\"é\"]" ∧
      taken Bounded.unlimited = [] ∧ limit Bounded.unlimited = none ∧
      taken (editStream [] (.flushing true) source Bounded.unlimited).sink =
        utf8 (editText [] "[\"é\"]").sink := by
  intro source
  have hr : ByteSource.Reliable source := Pieces.reliable _ (some 1)
  have hs : taken Bounded.unlimited = [] := rfl
  have hl : limit Bounded.unlimited = none := rfl
  exact ⟨hr, rfl, hs, hl,
    (ways_to_edit_agree [] "[\"é\"]" true source Bounded.unlimited hr rfl hs hl).1.written⟩

end JsonEdit
