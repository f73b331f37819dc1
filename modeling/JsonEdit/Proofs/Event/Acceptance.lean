import JsonEdit.Event.Grammar
import JsonEdit.Proofs.Editor.Outline

/-!
# The streams that an editor accepts

An editor accepts documents in a row and the end after them, and nothing else, as long as nothing
goes too deep. The rules have no say in it.

* `Outline.Fits`: events that take an outline to another one unless they go too deep;
  `fits_document`, `fits_items`, `fits_members`: so do the events of the grammar;
* `Completes`: the streams that end all that is open; `completes_of_run`: nothing else is accepted;
* **`run_ok_iff`**: the outlines that run to the end;
* **`accepts_exactly_documents`**: the editor.
-/

namespace JsonEdit

namespace Outline

/-- An outline that takes events. -/
abbrev running (d : Nat) (shape : Shape) : Outline := ⟨shape, .running, d⟩

/-! ## Events that fit -/

/-- The events go too deep. -/
def Exceeds (o : Outline) (events : List Event) : Prop :=
  ∃ depth maxDepth, (o.run events).2 = .error (.depthLimitExceeded depth maxDepth)

/-- The events take one outline to the other unless they go too deep. -/
def Fits (o : Outline) (events : List Event) (o' : Outline) : Prop :=
  o.run events = (o', .ok ()) ∨ o.Exceeds events

section Fits

variable {o o₁ o₂ : Outline} {events rest : List Event} {d : Nat} {shape around : Shape}

theorem Fits.nil (o : Outline) : Fits o [] o := .inl rfl

theorem Fits.append (h : Fits o events o₁) (hr : Fits o₁ rest o₂) : Fits o (events ++ rest) o₂ := by
  simp only [Fits, Exceeds, run_append]
  rcases h with h | ⟨depth, maxDepth, h⟩
  · rw [h]
    exact hr
  · rcases hrun : o.run events with ⟨o', result⟩
    rw [hrun] at h
    cases h
    exact .inr ⟨depth, maxDepth, rfl⟩

theorem run_singleton (o : Outline) (event : Event) : o.run [event] = o.handle event := by
  rw [run]
  rcases o.handle event with ⟨o', _ | _⟩ <;> rfl

theorem handle_begin (hp : prepare shape = .ok (none :: around)) {event : Event}
    {kind : NodeKind} {value : Option Json} (hs : event.steps = [.node kind value]) :
    (running d shape).handle event =
      if around.length < d then (running d (kind.shape ++ around), .ok ())
      else (running d shape).halt (none :: around)
        (.depthLimitExceeded (around.length + 1) d) := by
  simp only [handle, hs, performAll, perform, hp, within, List.length_cons, List.tail_cons]
  by_cases hd : around.length < d
  · rw [if_pos hd, if_neg (by omega)]
  · rw [if_neg hd, if_pos (by omega)]
    rfl

theorem fits_begin (hp : prepare shape = .ok (none :: around)) {event : Event}
    {kind : NodeKind} {value : Option Json} (hs : event.steps = [.node kind value]) :
    Fits (running d shape) [event] (running d (kind.shape ++ around)) := by
  simp only [Fits, Exceeds, run_singleton, handle_begin hp hs]
  by_cases hd : around.length < d
  · exact .inl (if_pos hd)
  · rw [if_neg hd]
    exact .inr ⟨_, _, rfl⟩

theorem handle_key (name : String) :
    (running d (some .object :: shape)).handle (.key name) =
      if shape.length + 1 < d then (running d (none :: some .object :: shape), .ok ())
      else (running d shape).halt (none :: some .object :: shape)
        (.depthLimitExceeded (shape.length + 2) d) := by
  simp only [handle, Event.steps, performAll, perform, within, List.length_cons]
  by_cases hd : shape.length + 1 < d
  · rw [if_pos hd, if_neg (by omega)]
  · rw [if_neg hd, if_pos (by omega)]
    rfl

theorem fits_key (name : String) : Fits (running d (some .object :: shape)) [.key name]
    (running d (none :: some .object :: shape)) := by
  simp only [Fits, Exceeds, run_singleton, handle_key]
  by_cases hd : shape.length + 1 < d
  · exact .inl (if_pos hd)
  · rw [if_neg hd]
    exact .inr ⟨_, _, rfl⟩

theorem phase_of_perform_node {kind : NodeKind} {value : Option Json}
    (h : o.perform (.node kind value) = (o₁, .ok ())) : o₁.phase = o.phase := by
  simp only [perform] at h
  split at h
  · cases h
  · simp only [within] at h
    split_ifs at h
    · cases h
    · cases h
      rfl

theorem handle_startObject (name : String) (h : o.phase = .running) :
    o.handle (.startObject (some name)) = o.run [.startObject none, .key name] := by
  simp only [run, handle, h, Event.steps, performAll]
  rcases hp : o.perform (.node .object none) with ⟨o', e | _⟩
  · rfl
  · simp only [phase_of_perform_node hp, h]
    rcases o'.perform (.key name) with ⟨o'', _ | _⟩ <;> rfl

theorem fits_startObject (hp : prepare shape = .ok (none :: around)) (name : String) :
    Fits (running d shape) [.startObject (some name)]
      (running d (none :: some .object :: around)) := by
  have h : Fits (running d shape) ([.startObject none] ++ [.key name])
      (running d (none :: some .object :: around)) :=
    (fits_begin hp rfl).append (fits_key name)
  have hs : (running d shape).handle _ = _ := handle_startObject name rfl
  simpa only [Fits, Exceeds, run_singleton, hs, List.singleton_append] using h

theorem fits_end (kind : ContainerKind) {event : Event} (hs : event.steps = [.close kind]) :
    Fits (running d (some kind :: shape)) [event] (running d shape) := by
  refine .inl ?_
  rw [run_singleton]
  simp [handle, hs, performAll, perform]

end Fits

/-! ## The grammar fits -/

mutual

/-- **A document fits wherever a node can begin.** -/
theorem fits_document {d : Nat} {events : List Event} : IsDocument events →
    ∀ {shape around : Shape}, prepare shape = .ok (none :: around) →
      Fits (running d shape) events (running d around)
  | .scalar value, _, _, hp =>
    fits_begin hp (rfl : (Event.scalar value).steps = [.node .scalar (some value)])
  | .array hi, _, _, hp =>
    ((fits_begin hp rfl).append (fits_items hi rfl)).append (fits_end .array rfl)
  | .object hm, _, _, hp =>
    ((fits_begin hp rfl).append (fits_members hm)).append (fits_end .object rfl)
  | .objectWith name hv hm, _, _, hp =>
    (((fits_startObject hp name).append (fits_document hv rfl)).append
      (fits_members hm)).append (fits_end .object rfl)

theorem fits_items {d : Nat} {events : List Event} : AreItems events →
    ∀ {shape : Shape}, prepare shape = .ok (none :: shape) →
      Fits (running d shape) events (running d shape)
  | .nil, _, _ => .nil _
  | .cons hi hs, _, hp => (fits_document hi hp).append (fits_items hs hp)

theorem fits_members {d : Nat} {events : List Event} : AreMembers events →
    ∀ {around : Shape},
      Fits (running d (some .object :: around)) events (running d (some .object :: around))
  | .nil, _ => .nil _
  | .cons name hv hm, _ =>
    ((fits_key name).append (fits_document hv rfl)).append (fits_members hm)

end

end Outline

/-! ## Nothing else is accepted -/

/-- The streams that bring everything open to its end, with any documents after it. -/
def Completes : Shape → List Event → Prop
  | [], events => AreDocuments events
  | none :: shape, events =>
    ∃ value rest, events = value ++ rest ∧ IsDocument value ∧ Completes shape rest
  | some .array :: shape, events =>
    ∃ items rest, events = items ++ .endArray :: rest ∧ AreItems items ∧ Completes shape rest
  | some .object :: shape, events =>
    ∃ members rest, events = members ++ .endObject :: rest ∧ AreMembers members ∧
      Completes shape rest

section Completes

variable {shape around : Shape} {events : List Event}

theorem Completes.document (hp : Outline.prepare shape = .ok (none :: around)) {value : List Event}
    (hv : IsDocument value) (h : Completes around events) : Completes shape (value ++ events) := by
  match shape, hp with
  | [], hp =>
    cases hp
    exact .cons hv h
  | some .array :: shape, hp =>
    cases hp
    obtain ⟨items, rest, rfl, hi, hr⟩ := h
    exact ⟨value ++ items, rest, by rw [List.append_assoc], .cons hv hi, hr⟩
  | none :: shape, hp =>
    cases hp
    exact ⟨value, events, rfl, hv, h⟩

theorem Completes.member (name : String) (h : Completes (none :: some .object :: shape) events) :
    Completes (some .object :: shape) (.key name :: events) := by
  obtain ⟨value, _, rfl, hv, members, rest, rfl, hm, hr⟩ := h
  exact ⟨.key name :: value ++ members, rest, by simp, .cons name hv hm, hr⟩

theorem Completes.startArray (hp : Outline.prepare shape = .ok (none :: around))
    (h : Completes (some .array :: around) events) : Completes shape (.startArray :: events) := by
  obtain ⟨items, rest, rfl, hi, hr⟩ := h
  have := Completes.document hp (.array hi) hr
  simpa using this

theorem Completes.startObject (hp : Outline.prepare shape = .ok (none :: around))
    (h : Completes (some .object :: around) events) :
    Completes shape (.startObject none :: events) := by
  obtain ⟨members, rest, rfl, hm, hr⟩ := h
  have := Completes.document hp (.object hm) hr
  simpa using this

theorem Completes.startObjectWith (hp : Outline.prepare shape = .ok (none :: around))
    (name : String) (h : Completes (none :: some .object :: around) events) :
    Completes shape (.startObject (some name) :: events) := by
  obtain ⟨value, _, rfl, hv, members, rest, rfl, hm, hr⟩ := h
  have := Completes.document hp (.objectWith name hv hm) hr
  simpa using this

end Completes

namespace Outline

variable {o o₁ : Outline}

theorem prepare_ok : ∀ {shape prepared : Shape}, prepare shape = .ok prepared →
    ∃ around, prepared = none :: around
  | [], _, h | some .array :: _, _, h | none :: _, _, h => by
    cases h
    exact ⟨_, rfl⟩
  | some .object :: _, _, h => by cases h

theorem perform_node_ok {kind : NodeKind} {value : Option Json}
    (h : o.perform (.node kind value) = (o₁, .ok ())) :
    ∃ around, prepare o.shape = .ok (none :: around) ∧
      o₁ = { o with shape := kind.shape ++ around } := by
  obtain ⟨shape, phase, d⟩ := o
  simp only [perform] at h
  rcases hp : prepare shape with reason | prepared
  · rw [hp] at h
    cases h
  rw [hp] at h
  simp only [within] at h
  split_ifs at h with hd
  · cases h
  · cases h
    obtain ⟨around, rfl⟩ := prepare_ok hp
    exact ⟨around, rfl, rfl⟩

theorem perform_key_ok {name : String} (h : o.perform (.key name) = (o₁, .ok ())) :
    ∃ around, o.shape = some .object :: around ∧
      o₁ = { o with shape := none :: some .object :: around } := by
  obtain ⟨shape, phase, d⟩ := o
  match shape with
  | some .object :: _ =>
    simp only [perform, within] at h
    split_ifs at h with hd
    · cases h
    · cases h
      exact ⟨_, rfl, rfl⟩
  | [] | some .array :: _ | none :: _ => cases h

theorem perform_close_ok {kind : ContainerKind} (h : o.perform (.close kind) = (o₁, .ok ())) :
    o.shape = some kind :: o₁.shape ∧ o₁ = { o with shape := o₁.shape } := by
  obtain ⟨shape, phase, d⟩ := o
  match shape with
  | [] => cases h
  | container :: shape =>
    simp only [perform] at h
    split_ifs at h with hc
    · cases h
      exact ⟨by rw [hc], rfl⟩
    · cases h

theorem handle_step {event : Event} {step : Step} (h : o.phase = .running)
    (hs : event.steps = [step]) : o.handle event = o.perform step := by
  simp only [handle, h, hs, performAll]
  rcases o.perform step with ⟨o', _ | _⟩ <;> rfl

theorem completes_of_handle {event : Event} (h : o.phase = .running)
    (he : o.handle event = (o₁, .ok ())) :
    (event = .finish ∧ o.shape = [] ∧ o₁.phase = .finished) ∨
    (o₁.phase = .running ∧
      ∀ rest, Completes o₁.shape rest → Completes o.shape (event :: rest)) := by
  cases event with
  | key name =>
    rw [handle_step h rfl] at he
    obtain ⟨around, hs, rfl⟩ := perform_key_ok he
    exact .inr ⟨h, fun rest hr => hs ▸ hr.member name⟩
  | scalar value =>
    rw [handle_step h rfl] at he
    obtain ⟨around, hp, rfl⟩ := perform_node_ok he
    exact .inr ⟨h, fun rest hr => hr.document hp (.scalar value)⟩
  | startObject first =>
    cases first with
    | none =>
      rw [handle_step h rfl] at he
      obtain ⟨around, hp, rfl⟩ := perform_node_ok he
      exact .inr ⟨h, fun rest hr => hr.startObject hp⟩
    | some name =>
      rw [handle, h] at he
      simp only [Event.steps, performAll] at he
      rcases hn : o.perform (.node .object none) with ⟨o', e | _⟩
      · rw [hn] at he; cases he
      · obtain ⟨around, hp, rfl⟩ := perform_node_ok hn
        simp only [hn] at he
        rcases hk : Outline.perform _ (.key name) with ⟨o'', e | _⟩
        · rw [hk] at he; cases he
        · rw [hk] at he
          cases he
          obtain ⟨around', hs, rfl⟩ := perform_key_ok hk
          cases hs
          exact .inr ⟨h, fun rest hr => hr.startObjectWith hp name⟩
  | startArray =>
    rw [handle_step h rfl] at he
    obtain ⟨around, hp, rfl⟩ := perform_node_ok he
    exact .inr ⟨h, fun rest hr => hr.startArray hp⟩
  | endObject =>
    rw [handle_step h rfl] at he
    obtain ⟨hs, ho⟩ := perform_close_ok he
    exact .inr ⟨by rw [ho, h], fun rest hr => hs ▸ ⟨[], rest, rfl, .nil, hr⟩⟩
  | endArray =>
    rw [handle_step h rfl] at he
    obtain ⟨hs, ho⟩ := perform_close_ok he
    exact .inr ⟨by rw [ho, h], fun rest hr => hs ▸ ⟨[], rest, rfl, .nil, hr⟩⟩
  | error message =>
    rw [handle_step h rfl] at he
    cases he
  | finish =>
    rw [handle_step h rfl] at he
    simp only [perform] at he
    split_ifs at he with hs
    · cases he
      exact .inl ⟨rfl, List.isEmpty_iff.mp hs, rfl⟩
    · cases he

/-- **A stream that runs to the end** ends all that is open, and then comes the end. -/
theorem completes_of_run {o' : Outline} (hf : o'.phase = .finished) :
    ∀ {events : List Event} {o : Outline}, o.phase = .running → o.run events = (o', .ok ()) →
      ∃ es, events = es ++ [.finish] ∧ Completes o.shape es
  | [], o, h, hr => by
    cases hr
    rw [h] at hf
    cases hf
  | event :: events, o, h, hr => by
    rw [run] at hr
    rcases he : o.handle event with ⟨o₁, e | _⟩
    · rw [he] at hr; cases hr
    rw [he] at hr
    simp only at hr
    rcases completes_of_handle h he with ⟨rfl, hs, h₁⟩ | ⟨h₁, hc⟩
    · cases events with
      | nil => exact ⟨[], rfl, by rw [hs]; exact .nil⟩
      | cons next events =>
        rw [run, handle, h₁] at hr
        cases hr
    · obtain ⟨es, rfl, hes⟩ := completes_of_run hf h₁ hr
      exact ⟨event :: es, rfl, hc es hes⟩

/-! ## Exactly the documents -/

/-- **The outlines that run to the end** when nothing goes too deep: documents and the end. -/
theorem run_ok_iff {d : Nat} {events : List Event} (h : ¬ (running d []).Exceeds events) :
    (∃ o, (running d []).run events = (o, .ok ()) ∧ o.phase = .finished) ↔
      ∃ es, AreDocuments es ∧ events = es ++ [.finish] := by
  constructor
  · rintro ⟨o, hr, hf⟩
    obtain ⟨es, rfl, hes⟩ := completes_of_run hf rfl hr
    exact ⟨es, hes, rfl⟩
  · rintro ⟨es, hes, rfl⟩
    have hfit : Fits (running d []) (es ++ [.finish]) ⟨[], .finished, d⟩ :=
      (fits_items hes rfl).append (.inl rfl)
    exact ⟨_, hfit.resolve_right h, rfl⟩

/-! ## The results of all events -/

theorem results_ok_iff : ∀ (events : List Event) (o : Outline),
    (∀ r ∈ o.results events, r.1 = .ok ()) ↔ (o.run events).2 = .ok ()
  | [], _ => by simp [results, run]
  | event :: events, o => by
    rw [results, run, List.forall_mem_cons, results_ok_iff events]
    rcases o.handle event with ⟨o', _ | _⟩ <;> simp

theorem exists_result_of_run {e : EditError} : ∀ {events : List Event} {o : Outline},
    (o.run events).2 = .error e → ∃ r ∈ o.results events, r.1 = .error e
  | [], _, h => by cases h
  | event :: events, o, h => by
    rw [run] at h
    rw [results]
    rcases he : o.handle event with ⟨o', e' | _⟩ <;> rw [he] at h
    · exact ⟨_, List.mem_cons_self, h⟩
    · obtain ⟨r, hr, he⟩ := exists_result_of_run h
      exact ⟨r, List.mem_cons_of_mem _ hr, he⟩

theorem feed_of_run_ok : ∀ {events : List Event} {o : Outline},
    (o.run events).2 = .ok () → o.feed events = (o.run events).1
  | [], _, _ => rfl
  | event :: events, o, h => by
    rw [run] at h ⊢
    rw [feed]
    rcases he : o.handle event with ⟨o', e' | _⟩ <;> rw [he] at h
    · cases h
    · exact feed_of_run_ok h

end Outline

/-! ## The editor -/

section Editor

variable {σ : Type} [FragmentSink σ]

/-- No event of a stream is refused for its depth. -/
def WithinDepth (replies : List (Reply σ)) : Prop :=
  ∀ r ∈ replies, ∀ depth maxDepth, r.result ≠ .error (.depthLimitExceeded depth maxDepth)

section Replies

variable {rules : RuleSet} (hσ : FragmentSink.NeverFails σ) (h : rules.NeverFails) (ed : Editor)
  (sink : σ) (events : List Event)

include hσ h

theorem mem_results {x : Except EditError Unit × Nat} (hx : x ∈ ed.outline.results events) :
    ∃ r ∈ ed.replies rules sink events, r.result = x.1 := by
  rw [← Editor.replies_outline hσ h events ed sink, List.mem_map] at hx
  obtain ⟨r, hr, rfl⟩ := hx
  exact ⟨r, hr, rfl⟩

theorem replies_ok_iff : (∀ r ∈ ed.replies rules sink events, r.result = .ok ()) ↔
    (ed.outline.run events).2 = .ok () := by
  rw [← Outline.results_ok_iff]
  constructor
  · intro hr x hx
    obtain ⟨r, hm, hrx⟩ := mem_results hσ h ed sink events hx
    rw [← hrx, hr r hm]
  · intro hx r hr
    have hm := List.mem_map_of_mem (f := fun r => (r.result, r.editor.depth)) hr
    rw [Editor.replies_outline hσ h] at hm
    exact hx _ hm

theorem not_exceeds (hd : WithinDepth (ed.replies rules sink events)) :
    ¬ ed.outline.Exceeds events := by
  rintro ⟨depth, maxDepth, he⟩
  obtain ⟨x, hx, hxe⟩ := Outline.exists_result_of_run he
  obtain ⟨r, hr, hrx⟩ := mem_results hσ h ed sink events hx
  exact hd r hr depth maxDepth (hrx.trans hxe)

end Replies

/-- **An editor accepts exactly the documents.** With handlers and a sink that never fail, the
result of each event and the depth after it are what they are without rules; and a stream that
does not go too deep succeeds to its end if it is documents in a row and the end after them. -/
theorem accepts_exactly_documents (hσ : FragmentSink.NeverFails σ) {rules : RuleSet}
    (h : rules.NeverFails) (d : Nat) (sink : σ) (events : List Event) :
    let replies := (Editor.new d).replies rules sink events
    replies.map (fun r => (r.result, r.editor.depth)) =
        ((Editor.new d).replies [] sink events).map (fun r => (r.result, r.editor.depth)) ∧
      (WithinDepth replies →
        ((∀ r ∈ replies, r.result = .ok ()) ∧
            ((Editor.new d).feed rules sink events).1.phase = .finished ↔
          ∃ es, AreDocuments es ∧ events = es ++ [.finish])) := by
  intro replies
  refine ⟨?_, fun hdepth => ?_⟩
  · exact (Editor.replies_outline hσ h events (Editor.new d) sink).trans
      (Editor.replies_outline hσ RuleSet.neverFails_nil events (Editor.new d) sink).symm
  have hexc : ¬ (Outline.running d []).Exceeds events := not_exceeds hσ h _ sink events hdepth
  have hok : (∀ r ∈ replies, r.result = .ok ()) ↔
      ((Outline.running d []).run events).2 = .ok () := replies_ok_iff hσ h _ sink events
  have hphase : ((Editor.new d).feed rules sink events).1.phase =
      ((Outline.running d []).feed events).phase :=
    congrArg Outline.phase (Editor.feed_outline hσ h events (Editor.new d) sink)
  rw [← Outline.run_ok_iff hexc, hok, hphase]
  constructor
  · rintro ⟨hr, hf⟩
    rw [Outline.feed_of_run_ok hr] at hf
    exact ⟨_, Prod.ext rfl hr, hf⟩
  · rintro ⟨o, hr, hf⟩
    have hr2 : ((Outline.running d []).run events).2 = .ok () := by rw [hr]
    exact ⟨hr2, by rw [Outline.feed_of_run_ok hr2, hr, hf]⟩

/-- An array that is dropped and the text left of it. -/
theorem accepts_dropped_array :
    let rules : RuleSet := [⟨.predicate "every" fun _ => true, .always .remove⟩]
    let events : List Event := [.startArray, .scalar .null, .endArray, .finish]
    let replies := (Editor.new 2).replies rules "" events
    WithinDepth replies ∧
      replies.map (fun r => (r.result, r.editor.depth)) =
        ((Editor.new 2).replies [] "" events).map (fun r => (r.result, r.editor.depth)) ∧
      ∃ es, AreDocuments es ∧ events = es ++ [.finish] := by
  intro rules events replies
  have hok : ∀ r ∈ replies, r.result = .ok () := by
    intro r hr
    have hall : replies.map Reply.result = List.replicate 4 (.ok ()) := rfl
    exact List.eq_of_mem_replicate (hall ▸ List.mem_map_of_mem hr)
  have hdepth : WithinDepth replies := fun r hr depth maxDepth h => by
    rw [hok r hr] at h
    cases h
  have hr : rules.NeverFails := RuleSet.neverFails_nil.cons_always _ _
  have h := accepts_exactly_documents FragmentSink.neverFails_text hr 2 "" events
  exact ⟨hdepth, h.1, (h.2 hdepth).mp ⟨hok, rfl⟩⟩

end Editor

end JsonEdit
