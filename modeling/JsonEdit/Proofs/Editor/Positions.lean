import JsonEdit.Proofs.Editor.DepthLimit
import JsonEdit.Pattern.Compile
import JsonEdit.Proofs.Editor.Places
import JsonEdit.Proofs.Editor.TreeEdit
import JsonEdit.Proofs.Pattern.Alignment
import Mathlib.Data.List.Basic

/-!
# Positions in paths

In the path that a handler is shown, an array element stands as its position in the input, however
many elements before it have gone, and a member as its name. Only a node inside one that a rule has
given a new name sees that name.

* `Leads`: the keys that nodes below some places see;
* `Visit.Faithful`: a call for the node at a place, with a path that leads there;
* `Traces`: handlers called at places of a document, in its order;
* **`traces_value`**: so does an edit;
* `Segment.item`, `matchKeys_item`: patterns with an index;
* `Visit.Addressed`: what they accept of the paths that handlers are shown;
* **`calls_at_input_positions`**: the calls of a run.
-/

namespace JsonEdit

/-! ## Paths that handlers are shown -/

/-- A handler called for a node of a document. -/
structure Visit where
  site : Site
  call : Call

/-- The path that the handler is shown. -/
def Visit.keys (visit : Visit) : List String := visit.call.node.path.keys

/-- The handler called at some places has given the node another name. -/
def RenamedTo (rules : RuleSet) (visits : List Visit) (places : List Slot) (key : String) : Prop :=
  ∃ visit ∈ visits, visit.site.places = places ∧
    (rules.actionAt visit.call.node).newKey? = some key

/-- The keys are those of the places, but for nodes that a rule has renamed. -/
structure Leads (rules : RuleSet) (visits : List Visit) (places : List Slot)
    (keys : List String) : Prop where
  length : keys.length = places.length
  key : ∀ {i : Nat} {place : Slot} {key : String}, places[i]? = some place →
    keys[i]? = some key → key = place.key ∨ RenamedTo rules visits (places.take (i + 1)) key

/-- A node has not been renamed when its handler is called. -/
def EndsAt (places : List Slot) (keys : List String) : Prop :=
  ∀ place, places.getLast? = some place → keys.getLast? = some place.key

/-- The handler is shown the node of the site, at a path that leads there. -/
structure Visit.Faithful (rules : RuleSet) (visits : List Visit) (visit : Visit) : Prop where
  node : visit.call.node = visit.site.value.asNode visit.keys
  leads : Leads rules visits visit.site.places visit.keys
  /-- Further up, a node that has been renamed goes by its new name. -/
  renamed : ∀ {i : Nat} {key : String}, i + 1 < visit.site.places.length →
    RenamedTo rules visits (visit.site.places.take (i + 1)) key → visit.keys[i]? = some key
  ends : EndsAt visit.site.places visit.keys

/-- What an edit of the document knows of a call when it makes it. -/
structure Visit.Made (rules : RuleSet) (document : Json) (known : List Visit) (visit : Visit) :
    Prop where
  node : visit.call.node = visit.site.value.asNode visit.keys
  leads : Leads rules known visit.site.places visit.keys
  shown : rules.showAt document visit.site.places = some (visit.site.value, visit.keys)
  ends : EndsAt visit.site.places visit.keys

section Leads

variable {rules : RuleSet} {known more : List Visit} {places : List Slot} {keys : List String}

theorem RenamedTo.mono {key : String} (h : RenamedTo rules known places key)
    (hsub : known ⊆ more) : RenamedTo rules more places key := by
  obtain ⟨visit, hm, hv⟩ := h
  exact ⟨visit, hsub hm, hv⟩

theorem Leads.mono (h : Leads rules known places keys) (hsub : known ⊆ more) :
    Leads rules more places keys :=
  ⟨h.length, fun hp hk => (h.key hp hk).imp_right fun hr => hr.mono hsub⟩

theorem Visit.Made.mono {document : Json} {visit : Visit} (h : visit.Made rules document known)
    (hsub : known ⊆ more) : visit.Made rules document more :=
  ⟨h.node, h.leads.mono hsub, h.shown, h.ends⟩

/-- Two calls at one place are shown the same node. So a name that one of them gives is the name
that the other one's node goes by. -/
theorem Visit.Made.faithful {document : Json} {visit : Visit} (h : visit.Made rules document known)
    (hknown : ∀ other ∈ known, other.Made rules document known) : visit.Faithful rules known where
  node := h.node
  leads := h.leads
  renamed := by
    intro i key hi hr
    obtain ⟨other, hm, hplaces, hkey⟩ := hr
    have hother := hknown other hm
    rw [hother.node] at hkey
    exact RuleSet.showAt_renamed h.shown hi (hplaces ▸ hother.shown) hkey
  ends := h.ends

theorem leads_root : Leads rules known [] [] := ⟨rfl, fun hp => by simp at hp⟩

theorem endsAt_root : EndsAt [] [] := fun place h => by simp at h

theorem endsAt_concat (places : List Slot) (keys : List String) (place : Slot) :
    EndsAt (places ++ [place]) (keys ++ [place.key]) := by
  intro last h
  simp only [List.getLast?_concat, Option.some.injEq] at h ⊢
  rw [h]

theorem Leads.concat (h : Leads rules known places keys) {place : Slot} {key : String}
    (hk : key = place.key ∨ RenamedTo rules known (places ++ [place]) key) :
    Leads rules known (places ++ [place]) (keys ++ [key]) := by
  refine ⟨by simp [h.length], fun {i} {found} {name} hp hn => ?_⟩
  rcases Nat.lt_trichotomy i places.length with hi | rfl | hi
  · rw [List.getElem?_append_left hi] at hp
    rw [List.getElem?_append_left (by rw [h.length]; exact hi)] at hn
    rw [List.take_append_of_le_length hi]
    exact h.key hp hn
  · rw [List.getElem?_concat_length, Option.some.injEq] at hp
    rw [← h.length, List.getElem?_concat_length, Option.some.injEq] at hn
    subst hp hn
    rwa [List.take_of_length_le (by simp)]
  · rw [List.getElem?_eq_none (by simp; omega)] at hp
    cases hp

theorem Leads.above {place : Slot} {key : String}
    (h : Leads rules known (places ++ [place]) (keys ++ [key])) :
    Leads rules known places keys := by
  have hlen : keys.length = places.length := by simpa using h.length
  refine ⟨hlen, fun {i} {found} {name} hp hn => ?_⟩
  obtain ⟨hi, -⟩ := List.getElem?_eq_some_iff.mp hp
  have hi' : i < keys.length := hlen ▸ hi
  have hkey := h.key (i := i) (by rw [List.getElem?_append_left hi]; exact hp)
    (by rw [List.getElem?_append_left hi']; exact hn)
  rwa [List.take_append_of_le_length hi] at hkey

theorem Leads.renamePath (h : Leads rules known places keys) {newKey? : Option String}
    (hr : ∀ key, newKey? = some key → RenamedTo rules known places key) :
    Leads rules known places (renamePath keys newKey?) := by
  cases newKey? with
  | none => exact h
  | some key =>
    rcases List.eq_nil_or_concat' keys with rfl | ⟨init, last, rfl⟩
    · exact h
    rcases List.eq_nil_or_concat' places with rfl | ⟨above, place, rfl⟩
    · exact absurd h.length (by simp)
    have hpath : JsonEdit.renamePath (init ++ [last]) (some key) = init ++ [key] := by
      simp [JsonEdit.renamePath]
    rw [hpath]
    exact h.above.concat (.inr (hr key rfl))

end Leads

/-! ## Calls in the order of a document -/

/-- The calls are made for some of the sites in turn, each with a path that leads there. -/
inductive Traces (rules : RuleSet) (document : Json) :
    List Visit → List Site → List Call → Prop
  | nil (known : List Visit) (sites : List Site) : Traces rules document known sites []
  | skip {known : List Visit} {sites : List Site} {calls : List Call} (site : Site) :
    Traces rules document known sites calls → Traces rules document known (site :: sites) calls
  | visit {known : List Visit} {sites : List Site} {calls : List Call} {site : Site} {call : Call} :
    Visit.Made rules document known ⟨site, call⟩ →
      Traces rules document (known ++ [⟨site, call⟩]) sites calls →
        Traces rules document known (site :: sites) (call :: calls)

namespace Traces

variable {rules : RuleSet} {document : Json} {known more : List Visit} {sites rest : List Site}
  {calls further : List Call}

theorem mono (h : Traces rules document known sites calls) (hsub : known ⊆ more) :
    Traces rules document more sites calls := by
  induction h generalizing more with
  | nil => exact .nil _ _
  | skip site _ ih => exact .skip site (ih hsub)
  | visit hf _ ih =>
    refine .visit (hf.mono hsub) (ih ?_)
    exact List.append_subset.mpr
      ⟨List.subset_append_of_subset_left _ hsub, List.subset_append_right _ _⟩

theorem skipAll (sites : List Site) (h : Traces rules document known rest calls) :
    Traces rules document known (sites ++ rest) calls := by
  induction sites with
  | nil => exact h
  | cons site sites ih => exact .skip site ih

theorem append (h : Traces rules document known sites calls)
    (hr : Traces rules document known rest further) :
    Traces rules document known (sites ++ rest) (calls ++ further) := by
  induction h with
  | nil _ sites => exact hr.skipAll sites
  | skip site _ ih => exact .skip site (ih hr)
  | visit hf _ ih => exact .visit hf (ih (hr.mono (List.subset_append_left _ _)))

theorem of_prefix (h : Traces rules document known sites calls) (hp : further <+: calls) :
    Traces rules document known sites further := by
  induction h generalizing further with
  | nil known sites =>
    rw [List.prefix_nil.mp hp]
    exact .nil _ _
  | skip site _ ih => exact .skip site (ih hp)
  | visit hf _ ih =>
    cases further with
    | nil => exact .nil _ _
    | cons call further =>
      obtain ⟨rfl, hrest⟩ := List.cons_prefix_cons.mp hp
      exact .visit hf (ih hrest)

theorem visits (h : Traces rules document known sites calls) : ∃ visits : List Visit,
    calls = visits.map Visit.call ∧ (visits.map Visit.site).Sublist sites ∧
      ∀ visit ∈ visits, visit.Made rules document (known ++ visits) := by
  induction h with
  | nil known sites =>
    exact ⟨[], rfl, List.nil_sublist sites, fun _ hm => absurd hm List.not_mem_nil⟩
  | skip site _ ih =>
    obtain ⟨visits, hc, hs, hf⟩ := ih
    exact ⟨visits, hc, hs.cons site, hf⟩
  | @visit known sites calls site call hmade _ ih =>
    obtain ⟨visits, hc, hs, hf⟩ := ih
    refine ⟨⟨site, call⟩ :: visits, congrArg (call :: ·) hc, hs.cons_cons site, ?_⟩
    intro visit hm
    rcases List.mem_cons.mp hm with rfl | hm
    · exact hmade.mono (List.subset_append_left _ _)
    · have hall := hf visit hm
      rwa [List.append_assoc, List.singleton_append] at hall

/-- One node: its own call, and then those for what it holds if it is kept, where it goes by the
name that it has got. -/
theorem editNode {places : List Slot} {path : List String} {value : Json}
    {inside : List String → List Call × Json} (h : Leads rules known places path)
    (he : EndsAt places path) (hs : rules.showAt document places = some (value, path))
    (hi : ∀ {more : List Visit}, Leads rules more places (rules.pathInside value path) →
      Traces rules document more sites (inside (rules.pathInside value path)).1) :
    Traces rules document known (⟨places, value⟩ :: sites)
      (rules.editNode path value inside).calls := by
  rcases hfirst : rules.first? ⟨path⟩ with _ | ⟨index, rule⟩
  · have hcalls : rules.callsAt (value.asNode path) = [] := by
      simp only [RuleSet.callsAt, Json.asNode, hfirst]
    have haction : rules.actionAt (value.asNode path) = .pass := by
      simp only [RuleSet.actionAt, Json.asNode, hfirst]
    have hinner : rules.pathInside value path = path := by
      rw [RuleSet.pathInside, haction]
      rfl
    rw [hinner] at hi
    simp only [RuleSet.editNode, hcalls, haction, Action.drops, Action.newValue?,
      Bool.false_eq_true, if_false, List.nil_append]
    exact .skip _ (hi h)
  · let call : Call := ⟨index, value.asNode path⟩
    have hcalls : rules.callsAt (value.asNode path) = [call] := by
      simp only [RuleSet.callsAt, Json.asNode, hfirst, call]
    have hmade : Visit.Made rules document known ⟨⟨places, value⟩, call⟩ := ⟨rfl, h, hs, he⟩
    simp only [RuleSet.editNode, hcalls]
    split_ifs
    · exact .visit hmade (.nil _ _)
    split
    · exact .visit hmade (.nil _ _)
    · refine .visit hmade (hi ?_)
      refine (h.mono (List.subset_append_left _ _)).renamePath fun key hkey => ?_
      exact ⟨_, List.mem_append_right _ List.mem_cons_self, rfl, hkey⟩

end Traces

section

variable {rules : RuleSet} {document : Json}

mutual

/-- **An edit calls handlers at places of the value, in its order.** -/
theorem traces_value {known : List Visit} {places : List Slot} {path : List String}
    (h : Leads rules known places path) (he : EndsAt places path) :
    ∀ value : Json, rules.showAt document places = some (value, path) →
      Traces rules document known (value.sitesAt places) (value.editAt rules path).calls
  | .null, hs | .bool _, hs | .num _, hs | .str _, hs => .editNode h he hs fun _ => .nil _ _
  | .arr items, hs => .editNode h he hs fun h => traces_items h 0 items (RuleSet.shows_items hs)
  | .obj members, hs =>
    .editNode h he hs fun h => traces_members h 0 members (RuleSet.shows_members hs)

theorem traces_items {known : List Visit} {places : List Slot} {path : List String}
    (h : Leads rules known places path) (index : Nat) :
    ∀ items : List Json,
      RuleSet.ShowsChildren (fun index _ => .item index) id rules document places path index items →
      Traces rules document known (Json.sitesOfItems places index items)
        (Json.editItems rules path index items).1
  | [], _ => .nil _ _
  | item :: items, hs =>
    (traces_value (h.concat (.inl rfl)) (endsAt_concat places path (.item index)) item
      (hs 0 item rfl)).append (traces_items h (index + 1) items hs.tail)

theorem traces_members {known : List Visit} {places : List Slot} {path : List String}
    (h : Leads rules known places path) (index : Nat) :
    ∀ members : List (String × Json),
      RuleSet.ShowsChildren (fun index member => .member index member.1) Prod.snd rules document
        places path index members →
      Traces rules document known (Json.sitesOfMembers places index members)
        (Json.editMembers rules path members).1
  | [], _ => .nil _ _
  | (name, value) :: members, hs =>
    (traces_value (h.concat (.inl rfl)) (endsAt_concat places path (.member index name)) value
      (hs 0 (name, value) rfl)).append (traces_members h (index + 1) members hs.tail)

end

end

/-! ## Patterns with an index -/

/-- The segment `[n]` of a pattern. -/
def Segment.item (n : Nat) : Segment := ⟨false, .literal (indexKey n)⟩

example : (Pattern.compile .standard "$..a[12]").map Pattern.segments =
    .ok [⟨true, .literal "a"⟩, .item 12] := by
  decide +kernel

theorem matchKeys_item (n : Nat) (back : List Segment) (keys : List String) :
    matchKeys (.item n :: back) keys = true ↔
      ∃ rest, keys = indexKey n :: rest ∧ matchKeys back rest = true := by
  rcases keys with _ | ⟨key, keys⟩
  · simp [matchKeys, Segment.item]
  · simp [matchKeys, Segment.item, KeyMatcher.accepts, eq_comm (a := key)]

theorem length_of_matchKeys {segments : List Segment} {keys : List String}
    (hd : ∀ segment ∈ segments, segment.descend = false) (h : matchKeys segments keys = true) :
    keys.length = segments.length := by
  induction segments generalizing keys with
  | nil => simpa [matchKeys] using h
  | cons segment segments ih =>
    rcases keys with _ | ⟨key, keys⟩
    · simp [matchKeys, hd segment List.mem_cons_self] at h
    · rw [matchKeys, if_neg (by simp [hd segment List.mem_cons_self])] at h
      have hrest := ih (fun s hs => hd s (List.mem_cons_of_mem _ hs)) (Bool.and_eq_true_iff.mp h).2
      simp [hrest]

theorem indexKey_inj {m n : Nat} : indexKey m = indexKey n ↔ m = n := by
  refine ⟨fun h => ?_, fun h => h ▸ rfl⟩
  rw [indexKey, indexKey, Nat.toString_eq_ofList_toDigits, Nat.toString_eq_ofList_toDigits,
    String.ofList_inj] at h
  rw [← Nat.ofDigitChars_ten_toDigits (n := m), h, Nat.ofDigitChars_ten_toDigits]

/-- A component of the path stands for the element at position `n`, and no rule has renamed that
element. -/
def Visit.HasItem (rules : RuleSet) (visits : List Visit) (visit : Visit) (i n : Nat) : Prop :=
  visit.site.places[i]? = some (.item n) ∧
    ∀ key, ¬ RenamedTo rules visits (visit.site.places.take (i + 1)) key

/-- What patterns with an index accept of the paths that a handler is shown. -/
structure Visit.Addressed (rules : RuleSet) (visits : List Visit) (visit : Visit) : Prop where
  /-- The key of an element is its position. -/
  position : ∀ {i n : Nat}, visit.HasItem rules visits i n → visit.keys[i]? = some (indexKey n)
  /-- `[m]` at the end stands for the element at this position in the input. -/
  element : ∀ {n : Nat}, visit.site.places.getLast? = some (.item n) →
    ∀ (front : List Segment) (m : Nat), matchKeys (front ++ [.item m]) visit.keys = true ↔
      matchKeys front visit.keys.dropLast = true ∧ m = n
  /-- Further up, `[n]` takes the key of the element. -/
  below : ∀ {i n : Nat}, visit.HasItem rules visits i n → ∀ {front back : List Segment},
    matchKeys front (visit.keys.take i) = true → matchKeys back (visit.keys.drop (i + 1)) = true →
      matchKeys (front ++ .item n :: back) visit.keys = true
  /-- No other index takes it. -/
  only : ∀ {i n : Nat}, visit.HasItem rules visits i n → ∀ {front back : List Segment} {m : Nat},
    (∀ segment ∈ front, segment.descend = false) → front.length = i →
      matchKeys (front ++ .item m :: back) visit.keys = true → m = n

section Addressed

variable {rules : RuleSet} {visits : List Visit} {visit : Visit}

theorem Visit.Faithful.key_item (h : visit.Faithful rules visits) {i n : Nat}
    (hi : visit.HasItem rules visits i n) : visit.keys[i]? = some (indexKey n) := by
  obtain ⟨hp, hr⟩ := hi
  obtain ⟨hlt, -⟩ := List.getElem?_eq_some_iff.mp hp
  have hlt : i < visit.keys.length := h.leads.length ▸ hlt
  have hk : visit.keys[i]? = some visit.keys[i] := List.getElem?_eq_getElem hlt
  rcases h.leads.key hp hk with hkey | hnew
  · rw [hk, hkey]
    rfl
  · exact absurd hnew (hr _)

theorem Visit.Faithful.addressed (h : visit.Faithful rules visits) :
    visit.Addressed rules visits where
  position := h.key_item
  element := by
    intro n hn front m
    obtain ⟨init, hinit⟩ := List.getLast?_eq_some_iff.mp (h.ends _ hn)
    rw [hinit, List.dropLast_concat, matchKeys_append]
    constructor
    · rintro ⟨above, below, hk, hf, hm⟩
      obtain ⟨rest, rfl, hrest⟩ := (matchKeys_item m [] below).mp hm
      obtain rfl : rest = [] := List.isEmpty_iff.mp hrest
      obtain ⟨rfl, hkey⟩ := List.append_inj' hk rfl
      exact ⟨hf, (indexKey_inj.mp (List.singleton_inj.mp hkey)).symm⟩
    · rintro ⟨hf, rfl⟩
      exact ⟨init, [indexKey m], rfl, hf, (matchKeys_item m [] _).mpr ⟨[], rfl, rfl⟩⟩
  below := by
    intro i n hi front back hf hb
    obtain ⟨hlt, hget⟩ := List.getElem?_eq_some_iff.mp (h.key_item hi)
    have hsplit : visit.keys = visit.keys.take i ++ indexKey n :: visit.keys.drop (i + 1) := by
      rw [← hget, List.getElem_cons_drop, List.take_append_drop]
    rw [hsplit, matchKeys_append]
    exact ⟨_, _, rfl, hf, (matchKeys_item n back _).mpr ⟨_, rfl, hb⟩⟩
  only := by
    intro i n hi front back m hd hl hm
    have hk := h.key_item hi
    obtain ⟨above, below, hkeys, hf, hb⟩ := matchKeys_append.mp hm
    obtain ⟨rest, rfl, -⟩ := (matchKeys_item m back below).mp hb
    have hlen : above.length = i := (length_of_matchKeys hd hf).trans hl
    rw [hkeys, ← hlen, List.getElem?_append_right (Nat.le_refl _), Nat.sub_self,
      List.getElem?_cons_zero, Option.some.injEq] at hk
    exact indexKey_inj.mp hk

end Addressed

/-! ## Runs -/

theorem FragmentSink.follows_text (σ : Type) [FragmentSink σ] :
    FragmentSink.Follows (fun (_ : σ) (_ : String) => True) fun _ _ => True where
  emit := by
    intro sink text fragment _
    refine ⟨rfl, ?_⟩
    rcases (FragmentSink.emit sink fragment).1 with message | _
    · exact .inr ⟨⟨message, rfl⟩, trivial⟩
    · exact .inl ⟨rfl, trivial⟩
  goesOn := fun _ _ _ _ => trivial

namespace Editor

variable {σ : Type} [FragmentSink σ] {rules : RuleSet}

theorem run_calls_eq_edit (hσ : FragmentSink.NeverFails σ) (h : rules.NeverFails)
    {doc : Document} {d : Nat} (hd : doc.value.depth ≤ d) (sink : σ) :
    ((Editor.new d).run rules sink #[] doc.allEvents).calls.toList =
      (doc.value.edit rules).calls := by
  have halike : FragmentSink.Alike fun (_ : σ) (_ : String) => True :=
    fun sink _ fragment _ => ⟨hσ sink fragment, trivial⟩
  obtain ⟨ed, hrun, -⟩ :=
    run_allEvents h ((accepts_allEvents FragmentSink.neverFails_text h "" doc).mpr hd)
  have hsame : ((Editor.new d).run rules sink #[] doc.allEvents).calls =
      ((Editor.new d).run rules "" #[] doc.allEvents).calls :=
    (run_alike rules halike doc.allEvents (Editor.new d) #[] trivial).calls
  rw [hsame, hrun]

/-- With any sink and any limit, the calls of a run are the first ones of those that the rules
make for the whole value. -/
theorem run_calls_prefix_edit (h : rules.NeverFails) (doc : Document) (d : Nat) (sink : σ) :
    ((Editor.new d).run rules sink #[] doc.allEvents).calls.toList <+:
      (doc.value.edit rules).calls := by
  have hsink : ((Editor.new d).run rules sink #[] doc.allEvents).calls.toList <+:
      ((Editor.new d).run rules "" #[] doc.allEvents).calls.toList := by
    rcases run_follows rules (FragmentSink.follows_text σ) doc.allEvents (Editor.new d)
      #[] (trivial : (fun (_ : σ) (_ : String) => True) sink "") with hsame | hshort
    · exact hsame.calls ▸ List.prefix_rfl
    · exact hshort.calls
  have hdeep : ((Editor.new d).run rules "" #[] doc.allEvents).calls.toList <+:
      ((Editor.new (max d doc.value.depth)).run rules "" #[] doc.allEvents).calls.toList :=
    run_calls_deeper rules (Nat.le_max_left d doc.value.depth) "" #[] doc.allEvents
  rw [run_calls_eq_edit FragmentSink.neverFails_text h (Nat.le_max_right _ _)] at hdeep
  exact hsink.trans hdeep

/-- **Paths hold input positions.** Each call of a run is made for a node of its own, in the order
of the document. What its path says of an element is the position of the element in the input, and
so patterns with an index find it there. Only what stands inside an element that a rule has given a
name sees that name in place of the position. -/
theorem calls_at_input_positions (h : rules.NeverFails) (value : Json) (d : Nat) (sink : σ) :
    ∃ visits : List Visit,
      ((Editor.new d).run rules sink #[] value.documentEvents).calls.toList =
          visits.map Visit.call ∧
        (visits.map Visit.site).Sublist value.sites ∧
        ∀ visit ∈ visits, visit.Faithful rules visits ∧ visit.Addressed rules visits := by
  have htraces : Traces rules value [] value.sites (value.edit rules).calls :=
    traces_value leads_root endsAt_root value rfl
  obtain ⟨visits, hc, hs, hmade⟩ :=
    (htraces.of_prefix (run_calls_prefix_edit h (.ofValue value) d sink)).visits
  refine ⟨visits, hc, hs, fun visit hm => ?_⟩
  have hfaithful : visit.Faithful rules visits := (hmade visit hm).faithful hmade
  exact ⟨hfaithful, hfaithful.addressed⟩

/-- The first element goes, and an element of the second one gets a name: what stands inside it
sees the name, and all other components are input positions. -/
theorem calls_at_input_positions_dropped :
    let rules : RuleSet :=
      [⟨.predicate "first" fun path => path.keys == ["0"], .always .remove⟩,
        ⟨.predicate "inner" fun path => path.keys == ["1", "1"], .always (.rename "x")⟩,
        ⟨.predicate "every" fun _ => true, .always .pass⟩]
    let value : Json := .arr [.null, .arr [.bool true, .arr [.null]]]
    let calls := ((Editor.new 4).run rules "" #[] value.documentEvents).calls.toList
    rules.NeverFails ∧
      calls.map (fun call => call.node.path.keys) =
          [[], ["0"], ["1"], ["1", "0"], ["1", "1"], ["1", "x", "0"]] ∧
        ∃ visits : List Visit, calls = visits.map Visit.call ∧
          (visits.map Visit.site).Sublist value.sites ∧
            ∀ visit ∈ visits, visit.Faithful rules visits ∧ visit.Addressed rules visits := by
  intro rules value calls
  have hrules : rules.NeverFails :=
    ((RuleSet.neverFails_nil.cons_always _ _).cons_always _ _).cons_always _ _
  have hkeys : calls.map (fun call => call.node.path.keys) =
      [[], ["0"], ["1"], ["1", "0"], ["1", "1"], ["1", "x", "0"]] := by
    have hdepth : (Document.ofValue value).value.depth ≤ 4 := by decide
    have hcalls : calls = (value.edit rules).calls :=
      run_calls_eq_edit FragmentSink.neverFails_text hrules hdepth ""
    rw [hcalls]
    decide +kernel
  exact ⟨hrules, hkeys, calls_at_input_positions hrules value 4 ""⟩

/-- **An element that has got a name goes by it.** The paths below such an element hold no input
position for it, whichever nodes the calls are taken for. -/
theorem renamed_element_has_no_position :
    let rules : RuleSet :=
      [⟨.predicate "first" fun path => path.keys == ["0"], .always (.rename "x")⟩,
        ⟨.predicate "every" fun _ => true, .always .pass⟩]
    let value : Json := .arr [.arr [.null]]
    rules.NeverFails ∧
      ¬ ∃ visits : List Visit,
        ((Editor.new 3).run rules "" #[] value.documentEvents).calls.toList =
            visits.map Visit.call ∧
          (visits.map Visit.site).Sublist value.sites ∧
            ∀ visit ∈ visits, ∀ i n : Nat, visit.site.places[i]? = some (.item n) →
              visit.keys[i]? = some (indexKey n) := by
  intro rules value
  refine ⟨(RuleSet.neverFails_nil.cons_always _ _).cons_always _ _, ?_⟩
  rintro ⟨visits, hc, hs, hpos⟩
  have hkeys : visits.map Visit.keys = [[], ["0"], ["x", "0"]] := by
    have hrun : ((Editor.new 3).run rules "" #[] value.documentEvents).calls.toList.map
        (fun call => call.node.path.keys) = [[], ["0"], ["x", "0"]] := by decide +kernel
    rw [hc, List.map_map] at hrun
    exact hrun
  have hlen : visits.length = 3 := by simpa using congrArg List.length hkeys
  -- three calls for three nodes: each node has its own
  have hplaces : visits.map (fun visit => visit.site.places) =
      [[], [.item 0], [.item 0, .item 0]] := by
    have hall : visits.map Visit.site = value.sites := by
      refine hs.eq_of_length ?_
      rw [List.length_map, hlen]
      rfl
    have hmap := congrArg (List.map Site.places) hall
    rw [List.map_map] at hmap
    exact hmap
  obtain ⟨root, outer, inner, rfl⟩ := List.length_eq_three.mp hlen
  simp only [List.map_cons, List.map_nil, List.cons.injEq, and_true] at hkeys hplaces
  have hx := hpos inner (by simp) 0 0 (by rw [hplaces.2.2]; rfl)
  rw [hkeys.2.2] at hx
  exact absurd hx (by decide +kernel)

end Editor

end JsonEdit
