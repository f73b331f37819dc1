import JsonEdit.Event.Told
import JsonEdit.Proofs.Event.Acceptance
import JsonEdit.Proofs.Json.Compact

/-!
# The events of a value are accepted

* `isDocument_events`: the events of a value are a document of the grammar;
* `Outline.Accepts`: the events all succeed; **`accepts_told`**: those that tell a value do if there
  is room for its depth;
* `Editor.accepts_allEvents`: a document on its own.
-/

namespace JsonEdit

namespace Json

theorem isDocument_events (value : Json) : IsDocument value.events :=
  value.toldBy_events.isDocument

theorem depth_pos (value : Json) : 0 < value.depth := by
  cases value <;> simp only [depth] <;> omega

theorem depth_of_scalar {value : Json} (h : value.kind = .scalar) : value.depth = 1 := by
  cases value <;> first | rfl | cases h

end Json

namespace Outline

/-! ## Room for the depth of a value -/

/-- Every event of the stream succeeds. -/
def Accepts (o : Outline) (events : List Event) : Prop := (o.run events).2 = .ok ()

section Accepts

variable {o o₁ : Outline} {events rest : List Event} {d : Nat} {shape around : Shape}

theorem Fits.accepts_append (h : Fits o events o₁) :
    o.Accepts (events ++ rest) ↔ o.Accepts events ∧ o₁.Accepts rest := by
  simp only [Accepts, run_append]
  rcases h with h | ⟨depth, maxDepth, h⟩
  · rw [h]
    exact (and_iff_right rfl).symm
  · rcases hrun : o.run events with ⟨o', result⟩
    rw [hrun] at h
    cases h
    exact iff_of_false (fun he => by cases he) fun he => by cases he.1

theorem Fits.run_of_accepts (h : Fits o events o₁) (ha : o.Accepts events) :
    o.run events = (o₁, .ok ()) := by
  rcases h with h | ⟨depth, maxDepth, h⟩
  · exact h
  · cases ha.symm.trans h

theorem accepts_begin (hp : prepare shape = .ok (none :: around)) {event : Event}
    {kind : NodeKind} {value : Option Json} (hs : event.steps = [.node kind value]) :
    (running d shape).Accepts [event] ↔ around.length < d := by
  rw [Accepts, run_singleton, handle_begin hp hs]
  by_cases hd : around.length < d
  · rw [if_pos hd]
    exact iff_of_true rfl hd
  · rw [if_neg hd]
    exact iff_of_false (fun he => by cases he) hd

theorem accepts_key (name : String) :
    (running d (some .object :: shape)).Accepts [.key name] ↔ shape.length + 1 < d := by
  rw [Accepts, run_singleton, handle_key]
  by_cases hd : shape.length + 1 < d
  · rw [if_pos hd]
    exact iff_of_true rfl hd
  · rw [if_neg hd]
    exact iff_of_false (fun he => by cases he) hd

theorem accepts_end (kind : ContainerKind) {event : Event} (hs : event.steps = [.close kind]) :
    (running d (some kind :: shape)).Accepts [event] := by
  rw [Accepts, run_singleton]
  simp [handle, hs, performAll, perform]

theorem accepts_startObject (h : o.phase = .running) (name : String) (events : List Event) :
    o.Accepts (.startObject (some name) :: events) ↔
      o.Accepts (.startObject none :: .key name :: events) := by
  have hwith : o.run ([.startObject (some name)] ++ events) =
      o.run ([.startObject none, .key name] ++ events) := by
    rw [run_append, run_append, run_singleton, handle_startObject name h]
  exact iff_of_eq (congrArg (fun r : Outline × Except EditError Unit => r.2 = .ok ()) hwith)

theorem accepts_container (kind : ContainerKind) {start stop : Event}
    (hp : prepare shape = .ok (none :: around)) (hs : start.steps = [.node kind.node none])
    (he : stop.steps = [.close kind])
    (hi : Fits (running d (some kind :: around)) events (running d (some kind :: around))) :
    (running d shape).Accepts (start :: events ++ [stop]) ↔
      around.length + 1 ≤ d ∧ (running d (some kind :: around)).Accepts events := by
  have hshape : kind.node.shape ++ around = some kind :: around := by cases kind <;> rfl
  have hb : Fits (running d shape) [start] (running d (some kind :: around)) :=
    hshape ▸ fits_begin hp hs
  have hsplit : start :: events ++ [stop] = [start] ++ events ++ [stop] := rfl
  rw [hsplit, (hb.append hi).accepts_append, hb.accepts_append, accepts_begin hp hs]
  exact and_iff_left (accepts_end kind he)

end Accepts

section Told

variable {d : Nat} {shape around : Shape} {members : List (String × Json)} {value : Json}

theorem accepts_object {events : List Event} (hp : prepare shape = .ok (none :: around))
    (hfit : AreMembers events) (hm : around.length + 1 ≤ d →
      ((running d (some .object :: around)).Accepts events ↔
        around.length + 1 + Json.depthMembers members ≤ d)) :
    (running d shape).Accepts (.startObject none :: events ++ [.endObject]) ↔
      around.length + (Json.obj members).depth ≤ d := by
  rw [accepts_container .object hp rfl rfl (fits_members hfit), and_congr_right hm, Json.depth]
  omega

theorem accepts_members_cons {first rest : List Event} (name : String) (hfirst : IsDocument first)
    (hv : (running d (none :: some .object :: around)).Accepts first ↔
      (some ContainerKind.object :: around).length + value.depth ≤ d)
    (hm : (running d (some .object :: around)).Accepts rest ↔
      around.length + 1 + Json.depthMembers members ≤ d) :
    (running d (some .object :: around)).Accepts (.key name :: first ++ rest) ↔
      around.length + 1 + Json.depthMembers ((name, value) :: members) ≤ d := by
  have hk : Fits (running d (some .object :: around)) [.key name] _ := fits_key name
  have hkv := hk.append (fits_document hfirst rfl)
  have hsplit : .key name :: first ++ rest = [.key name] ++ first ++ rest := rfl
  have hpos := value.depth_pos
  rw [hsplit, hkv.accepts_append, hk.accepts_append, accepts_key, hv, hm, Json.depthMembers,
    List.length_cons]
  omega

mutual

/-- **Events that tell a value** are accepted if there is room for its depth. -/
theorem accepts_told {events : List Event} : ∀ {value : Json}, value.ToldBy events →
    ∀ {shape around : Shape}, prepare shape = .ok (none :: around) →
      ((running d shape).Accepts events ↔ around.length + value.depth ≤ d)
  | value, .scalar hk, _, around, hp => by
    rw [accepts_begin hp (rfl : (Event.scalar value).steps = [.node .scalar (some value)]),
      Json.depth_of_scalar hk]
    exact Iff.rfl
  | .arr items, .array hi, _, around, hp => by
    have hitems : (some ContainerKind.array :: around).length ≤ d →
        ((running d (some .array :: around)).Accepts _ ↔ _) := accepts_itemsTold hi rfl
    rw [accepts_container .array hp rfl rfl (fits_items hi.areItems rfl)]
    refine (and_congr_right hitems).trans ?_
    rw [List.length_cons, Json.depth]
    omega
  | .obj members, .object hm, _, around, hp =>
    accepts_object hp hm.areMembers fun hd => accepts_membersTold hm hd
  | .obj ((name, value) :: members), .objectWith _ hv hm, _, around, hp =>
    (accepts_startObject rfl name _).trans <|
      accepts_object hp (.cons name hv.isDocument hm.areMembers) fun hd =>
        accepts_members_cons name hv.isDocument (accepts_told hv rfl) (accepts_membersTold hm hd)

theorem accepts_itemsTold {events : List Event} : ∀ {items : List Json},
    Json.ItemsToldBy items events → ∀ {shape : Shape}, prepare shape = .ok (none :: shape) →
      shape.length ≤ d →
      ((running d shape).Accepts events ↔ shape.length + Json.depthItems items ≤ d)
  | [], .nil, _, _, hd => iff_of_true rfl hd
  | item :: items, .cons hi his, _, hp, hd => by
    rw [(fits_document hi.isDocument hp).accepts_append, accepts_told hi hp,
      accepts_itemsTold his hp hd, Json.depthItems]
    omega

theorem accepts_membersTold {events : List Event} : ∀ {members : List (String × Json)},
    Json.MembersToldBy members events → ∀ {around : Shape}, around.length + 1 ≤ d →
      ((running d (some .object :: around)).Accepts events ↔
        around.length + 1 + Json.depthMembers members ≤ d)
  | [], .nil, _, hd => iff_of_true rfl hd
  | (name, _) :: _, .cons _ hv hm, _, hd =>
    accepts_members_cons name hv.isDocument (accepts_told hv rfl) (accepts_membersTold hm hd)

end

theorem fits_allEvents (doc : Document) :
    Fits (running d []) doc.allEvents ⟨[], .finished, d⟩ :=
  (fits_document doc.told.isDocument rfl).append (.inl rfl)

theorem accepts_allEvents (doc : Document) :
    (running d []).Accepts doc.allEvents ↔ doc.value.depth ≤ d := by
  have hfit : Fits (running d []) doc.events (running d []) :=
    fits_document doc.told.isDocument rfl
  have hend : (running d []).Accepts [.finish] := rfl
  exact (hfit.accepts_append.trans (and_iff_left hend)).trans <|
    (accepts_told doc.told rfl).trans (by rw [List.length_nil, Nat.zero_add])

end Told

end Outline

/-! ## The editor -/

namespace Editor

variable {σ : Type} [FragmentSink σ] {rules : RuleSet} {d : Nat}

theorem accepts_allEvents (hσ : FragmentSink.NeverFails σ) (h : rules.NeverFails) (sink : σ)
    (doc : Document) : Accepts rules (Editor.new d) sink doc.allEvents ↔ doc.value.depth ≤ d := by
  rw [accepts_iff_outline hσ h]
  exact Outline.accepts_allEvents doc

theorem accepts_documentEvents (hσ : FragmentSink.NeverFails σ) (h : rules.NeverFails) (sink : σ)
    {value : Json} (hd : value.depth ≤ d) :
    Accepts rules (Editor.new d) sink value.documentEvents :=
  (accepts_allEvents hσ h sink (Document.ofValue value)).mpr hd

end Editor

end JsonEdit
