import JsonEdit.Proofs.Editor.Failure
import JsonEdit.Proofs.Scanner.Protocol
import JsonEdit.Proofs.Stream.Pipeline

/-!
# Scanner and editor agree

The events that a scanner gives are events that an editor can take: whatever the bytes, however
their source ends and whatever the rules do, no run fails because events do not fit together.

* `EditError.IsProtocolFault`: the errors of events that do not fit together;
* `run_told`: the outline of an editor on the events of any bytes;
* **`error?_run_told`**: the editor itself, with any rules and any sink;
* **`events_keep_protocol`**: a source with any limit.
-/

namespace JsonEdit

/-- The error says that an event does not fit those before it. -/
def EditError.IsProtocolFault : EditError → Prop
  | .unbalanced _ _ | .unexpectedEnd _ | .closed _ => True
  | _ => False

theorem EditError.IsForeign.not_protocolFault {e : EditError} (h : e.IsForeign) :
    ¬ e.IsProtocolFault := by
  cases e <;> first | exact id | exact h.elim

namespace Outline

variable {o o' o₁ : Outline} {events rest : List Event} {d : Nat}

/-! ## The first events of a document -/

theorem Fits.left (h : Fits o (events ++ rest) o') :
    (∃ o₁, o.run events = (o₁, .ok ())) ∨ o.Exceeds events := by
  simp only [Fits, Exceeds, run_append] at h ⊢
  rcases hr : o.run events with ⟨o₁, e | _⟩
  · right
    rw [hr] at h
    rcases h with h | h
    · cases h
    · exact h
  · exact .inl ⟨o₁, rfl⟩

theorem phase_of_run (h : o.phase = .running) (hl : ∀ event ∈ events, ¬ event.IsLast)
    (hr : o.run events = (o₁, .ok ())) : o₁.phase = .running := by
  induction events generalizing o with
  | nil =>
    cases hr
    exact h
  | cons event events ih =>
    rw [run] at hr
    rcases he : o.handle event with ⟨o₂, e | _⟩
    · rw [he] at hr
      cases hr
    rw [he] at hr
    rcases completes_of_handle h he with ⟨rfl, -, -⟩ | ⟨h₂, -⟩
    · exact absurd trivial (hl .finish List.mem_cons_self)
    · exact ih h₂ (fun event hm => hl event (List.mem_cons_of_mem _ hm)) hr

theorem fits_events (d : Nat) (value : Json) :
    Fits (running d []) value.events (running d []) :=
  fits_document (Json.isDocument_events value) rfl

theorem Exceeds.append (h : o.Exceeds events) (rest : List Event) : o.Exceeds (events ++ rest) := by
  obtain ⟨depth, maxDepth, h⟩ := h
  refine ⟨depth, maxDepth, ?_⟩
  rw [run_append]
  rcases hr : o.run events with ⟨o₁, e | _⟩ <;> rw [hr] at h
  · exact h
  · cases h

/-- **The outline of an editor on the events of any bytes**: it runs to the end, or it stops for a
reason other than events that do not fit. -/
theorem run_told {count : Nat} {scanned : List Scanned} (h : Protocol count scanned) (d : Nat) :
    (∃ o, (running d []).run (told scanned) = (o, .ok ()) ∧ o.phase = .finished) ∨
      ∃ o e, (running d []).run (told scanned) = (o, .error e) ∧ ¬ e.IsProtocolFault := by
  obtain ⟨given, last, rfl, hl, ⟨value, rest, hv⟩, hlast⟩ := h.ends
  rw [told, List.map_append, List.map_singleton]
  have hfit := fits_events d value
  rw [← hv] at hfit
  rcases hfit.left with ⟨o₁, h₁⟩ | hx
  case inr =>
    obtain ⟨depth, maxDepth, hx⟩ := hx.append [last.event]
    exact .inr ⟨_, _, Prod.ext rfl hx, id⟩
  rw [run_append, h₁]
  simp only [run_singleton]
  rcases hlast with ⟨hlast, value, hv⟩ | ⟨message, hlast⟩ <;> rw [hlast]
  · -- the document is complete, so that nothing is open
    have hall := fits_events d value
    rw [← hv] at hall
    rcases hall with hall | ⟨depth, maxDepth, hx⟩ <;> rw [h₁] at *
    · cases hall
      exact .inl ⟨_, rfl, rfl⟩
    · cases hx
  · have hp := phase_of_run rfl hl h₁
    refine .inr ⟨o₁.halt o₁.shape (.malformedInput message) |>.1, .malformedInput message, ?_, id⟩
    rw [handle_step hp rfl]
    rfl

end Outline

/-! ## The editor -/

/-- **No editor fails on the events of any bytes because they do not fit together**, whatever the
rules and whatever the sink. -/
theorem error?_run_told {σ : Type} [FragmentSink σ] {count : Nat} {scanned : List Scanned}
    (h : Protocol count scanned) (rules : RuleSet) (d : Nat) (sink : σ) (calls : Array Call)
    {e : EditError}
    (he : ((Editor.new d).run rules sink calls (told scanned)).error? = some e) :
    ¬ e.IsProtocolFault := by
  simp only [Reply.error?] at he
  rcases Editor.run_foreign rules (told scanned) (Editor.new d) sink calls with
    hrun | ⟨e', hf, hres⟩
  · rcases Outline.run_told h d with ⟨o, ho, hp⟩ | ⟨o, e', ho, hn⟩
    · have hres := congrArg Prod.snd (hrun.trans ho)
      have hphase := congrArg Outline.phase (congrArg Prod.fst (hrun.trans ho))
      simp only at hres
      rw [hres] at he
      simp only [Editor.outline, hp] at hphase
      simp [hphase] at he
    · have hres := congrArg Prod.snd (hrun.trans ho)
      simp only at hres
      rw [hres] at he
      cases he
      exact hn
  · rw [hres] at he
    cases he
    exact hf.not_protocolFault

/-! ## Texts and streams -/

theorem Protocol.mono {m n : Nat} {scanned : List Scanned} (h : Protocol m scanned) (hn : m ≤ n) :
    Protocol n scanned :=
  { h with length_le := Nat.le_trans h.length_le (Nat.succ_le_succ hn) }

theorem editText_not_protocolFault (rules : RuleSet) (text : String) {e : EditError}
    (h : (editText rules text).result = .error e) : ¬ e.IsProtocolFault := by
  rw [editText_eq] at h
  simp only at h
  split at h
  · cases h
  · next he =>
    cases h
    exact error?_run_told (protocol_remaining none .complete (utf8 text)) rules _ _ _ he

theorem editStream_not_protocolFault {τ ω : Type} [ByteSource τ] [ByteSink ω] (rules : RuleSet)
    (options : StreamOptions) (source : τ) (sink : ω) {e : EditError}
    (h : (editStream rules options source sink).result = .error e) : ¬ e.IsProtocolFault := by
  rcases withLimit_cases options.maxDepth with ⟨fault, hd⟩ | hd
  · rw [editStream_refused hd] at h
    cases h
    exact id
  obtain ⟨source', -, -, -, hrun⟩ := editStream_eq rules options source sink hd
  rw [hrun] at h
  rcases endRun_error h with ⟨limit, rfl⟩ | ⟨message, rfl⟩ | he
  · exact id
  · exact id
  · exact error?_run_told (protocol_remaining none _ _) rules _ _ _ he

/-- **Scanner and editor never disagree.** -/
theorem events_keep_protocol {τ : Type} [ByteSource τ] (source : τ) (limit maxNesting : Option Nat)
    (rules : RuleSet) :
    let given := (Counted.new source limit).drain
    let start := Scanner.new maxNesting
    Protocol (ByteSource.pending source).length (start.remaining given.2.1 given.1) ∧
      (∀ ending bytes,
        (((start.pushed given.1).2.endWith given.2.1).2).remaining ending bytes = []) ∧
      (∀ text e, (editText rules text).result = .error e → ¬ e.IsProtocolFault) ∧
      ∀ (ω : Type) [ByteSink ω] (options : StreamOptions) (sink : ω) (e : EditError),
        (editStream rules options source sink).result = .error e → ¬ e.IsProtocolFault := by
  intro given start
  refine ⟨?_, ?_, ?_, ?_⟩
  · exact (protocol_remaining maxNesting given.2.1 given.1).mono
      (Counted.drain_prefix (Counted.new source limit)).length_le
  · intro ending bytes
    exact Scanner.remaining_of_stopped (Scanner.mode_endWith _ _) ending bytes
  · intro text e h
    exact editText_not_protocolFault rules text h
  · intro ω _ options sink e h
    exact editStream_not_protocolFault rules options source sink h

end JsonEdit
