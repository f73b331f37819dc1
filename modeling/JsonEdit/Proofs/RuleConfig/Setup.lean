import JsonEdit.Editor.Evaluate
import JsonEdit.RuleConfig.Sources
import Mathlib.Data.List.Forall2
import Mathlib.Data.List.TakeDrop
import Mathlib.Data.List.TakeWhile

/-!
# Rules in order, and the first fault

The entries of a rules file and the arguments that rename, remove and set are requests for rules, in
this order. All entries are looked at before any pattern is compiled; after that the requests are
carried out one by one, and the first that fails ends the setup. An argument that is no assignment
fails before its pattern is looked at.

* `RuleEntry.Asks`, `Assigns`: what entries and arguments ask for;
  `splitAssignment_cases`: an argument is split at its first `=`;
* `RuleRequest`, `RuleSources.requests`: all requests;
  `RuleRequest.Asks`, `RuleRequest.Fails`: what becomes of one;
* `FailsFirst`, `RuleSources.FirstFault`: the fault that is reported;
* `CarriesOut`: a part of the setup beside its requests; **`CarriesOut.append`**,
  `CarriesOut.foldlM`: parts in a row;
* **`build_cases`**: the whole setup;
* `Decides`, **`evaluate_decides`**: the rule that decides about a node;
* **`build_in_order`**: when rules are set up, what they do, and which fault is reported.
-/

namespace JsonEdit

/-! ## Entries and arguments -/

namespace RuleEntry

/-- An entry asks for an action. -/
inductive Asks : RuleEntry → Action → Prop
  | remove {path : String} : Asks ⟨path, none, true, none⟩ .remove
  | rename {path key : String} : Asks ⟨path, some key, false, none⟩ (.rename key)
  | replace {path : String} {value : Json} :
    Asks ⟨path, none, false, some value⟩ (.replace value)
  | renameReplace {path key : String} {value : Json} :
    Asks ⟨path, some key, false, some value⟩ (.renameReplace key value)

/-- An entry asks for no action. -/
inductive Fails : RuleEntry → EntryFault → Prop
  | contradictory {path : String} {rename : Option String} {value : Option Json} :
    rename.isSome ∨ value.isSome → Fails ⟨path, rename, true, value⟩ .contradictory
  | noAction {path : String} : Fails ⟨path, none, false, none⟩ .noAction

theorem action_cases (entry : RuleEntry) :
    (∃ action, entry.Asks action ∧ entry.action = .ok action) ∨
      ∃ fault, entry.Fails fault ∧ entry.action = .error fault := by
  obtain ⟨path, rename, remove, value⟩ := entry
  cases remove with
  | true =>
    rcases rename with _ | key
    · rcases value with _ | value
      · exact .inl ⟨_, .remove, rfl⟩
      · exact .inr ⟨_, .contradictory (.inr rfl), rfl⟩
    · exact .inr ⟨_, .contradictory (.inl rfl), rfl⟩
  | false =>
    rcases rename with _ | key <;> rcases value with _ | value
    · exact .inr ⟨_, .noAction, rfl⟩
    · exact .inl ⟨_, .replace, rfl⟩
    · exact .inl ⟨_, .rename, rfl⟩
    · exact .inl ⟨_, .renameReplace, rfl⟩

theorem asks_iff {entry : RuleEntry} {action : Action} :
    entry.Asks action ↔ entry.action = .ok action := by
  constructor
  · rintro (_ | _ | _ | _) <;> rfl
  · intro h
    rcases entry.action_cases with ⟨action', ha, he⟩ | ⟨fault, -, he⟩ <;> rw [he] at h <;> cases h
    exact ha

theorem fails_iff {entry : RuleEntry} {fault : EntryFault} :
    entry.Fails fault ↔ entry.action = .error fault := by
  constructor
  · rintro (⟨h⟩ | _)
    · have hboth : (_ || _) = true := Bool.or_eq_true_iff.mpr h
      rw [action, if_pos rfl, if_pos hboth]
    · rfl
  · intro h
    rcases entry.action_cases with ⟨action, -, he⟩ | ⟨fault', hf, he⟩ <;> rw [he] at h <;> cases h
    exact hf

end RuleEntry

/-- An argument assigns a value to a pattern: they stand on both sides of its first `=`. -/
structure Assigns (argument pattern value : String) : Prop where
  split : argument = pattern ++ "=" ++ value
  nonempty : pattern ≠ ""
  first : '=' ∉ pattern.toList

theorem splitAssignment_of_assigns (flag : AssignmentFlag) {argument pattern value : String}
    (h : Assigns argument pattern value) :
    splitAssignment flag argument = .ok (pattern, value) := by
  have hspan : argument.toList.span (· != '=') = (pattern.toList, '=' :: value.toList) := by
    have hall : ∀ c ∈ pattern.toList, (c != '=') = true := by
      intro c hc
      simpa using fun he : c = '=' => h.first (he ▸ hc)
    rw [h.split, List.span_eq_takeWhile_dropWhile, String.toList_append, String.toList_append,
      List.append_assoc, List.takeWhile_append_of_pos hall, List.dropWhile_append_of_pos hall]
    simp
  have hchars : pattern.toList ≠ [] := by simpa using h.nonempty
  obtain ⟨c, chars, hchars⟩ := List.exists_cons_of_ne_nil hchars
  have hcons : splitAssignment flag argument =
      .ok (String.ofList (c :: chars), String.ofList value.toList) := by
    rw [splitAssignment, hspan, hchars]
    rfl
  rw [hcons, ← hchars, String.ofList_toList, String.ofList_toList]

/-- **An argument is split at its first `=`**, or it assigns nothing. -/
theorem splitAssignment_cases (flag : AssignmentFlag) (argument : String) :
    (∃ pattern value, Assigns argument pattern value ∧
        splitAssignment flag argument = .ok (pattern, value)) ∨
      (∀ pattern value, ¬ Assigns argument pattern value) ∧
        splitAssignment flag argument = .error (.invalidArgument flag argument) := by
  rcases hs : splitAssignment flag argument with e | ⟨pattern, value⟩
  · refine .inr ⟨fun pattern value h => ?_, ?_⟩
    · rw [splitAssignment_of_assigns flag h] at hs
      cases hs
    · rw [splitAssignment] at hs
      split at hs <;> cases hs
      rfl
  · refine .inl ⟨pattern, value, ?_, rfl⟩
    rw [splitAssignment] at hs
    split at hs
    · next c before after hspan =>
      cases hs
      rw [List.span_eq_takeWhile_dropWhile, Prod.mk.injEq] at hspan
      have hall : argument.toList = (c :: before) ++ '=' :: after := by
        rw [← hspan.1, ← hspan.2, List.takeWhile_append_dropWhile]
      refine ⟨?_, by simp, ?_⟩
      · rw [← String.toList_inj, hall]
        simp
      · rw [String.toList_ofList, ← hspan.1]
        intro hm
        have hne := List.mem_takeWhile_imp hm
        simp at hne
    · cases hs

theorem Assigns.unique {argument pattern pattern' value value' : String}
    (h : Assigns argument pattern value) (h' : Assigns argument pattern' value') :
    pattern' = pattern ∧ value' = value := by
  have hs := splitAssignment_of_assigns .set h
  rw [splitAssignment_of_assigns .set h'] at hs
  cases hs
  exact ⟨rfl, rfl⟩

/-! ## Requests -/

/-- A rule that is asked for: the text of its pattern, and what to do with the nodes it accepts. -/
structure AskedRule where
  pattern : String
  action : Action

namespace AskedRule

/-- The pattern is compiled, and the rule gives the action at every node that it accepts. -/
def Becomes (asked : AskedRule) (rule : Rule) : Prop :=
  ∃ p, Pattern.compile .standard asked.pattern = .ok p ∧
    rule = ⟨.pattern p, .always asked.action⟩

/-- The pattern accepts the path. -/
def Matches (asked : AskedRule) (path : Path) : Prop :=
  ∃ p, Pattern.compile .standard asked.pattern = .ok p ∧ p.accepts path = true

end AskedRule

/-- What an assignment does with the nodes that its pattern accepts. -/
def AssignmentFlag.action : AssignmentFlag → String → Action
  | .rename, key => .rename key
  | .set, text => .replace (setValue text)

/-- A request for a rule. -/
inductive RuleRequest
  | entry (e : RuleEntry)
  | assignment (flag : AssignmentFlag) (argument : String)
  | remove (pattern : String)

namespace RuleRequest

/-- The rule that a request asks for. -/
inductive Asks : RuleRequest → AskedRule → Prop
  | entry {e : RuleEntry} {action : Action} : e.Asks action → Asks (.entry e) ⟨e.path, action⟩
  | assignment {flag : AssignmentFlag} {argument pattern value : String} :
    Assigns argument pattern value → Asks (.assignment flag argument) ⟨pattern, flag.action value⟩
  | remove {pattern : String} : Asks (.remove pattern) ⟨pattern, .remove⟩

/-- A request fails if it is no assignment although it should be, or else if its pattern cannot be
compiled. -/
inductive Fails : RuleRequest → ConfigError → Prop
  | assignment {flag : AssignmentFlag} {argument : String} :
    (∀ pattern value, ¬ Assigns argument pattern value) →
      Fails (.assignment flag argument) (.invalidArgument flag argument)
  | pattern {request : RuleRequest} {asked : AskedRule} {e : PatternError} :
    request.Asks asked → Pattern.compile .standard asked.pattern = .error e →
      Fails request (.pattern e)

/-- A request becomes a rule. -/
def Works (request : RuleRequest) : Prop := ∃ asked rule, request.Asks asked ∧ asked.Becomes rule

theorem Asks.unique {request : RuleRequest} {asked asked' : AskedRule} (h : request.Asks asked)
    (h' : request.Asks asked') : asked' = asked := by
  cases h with
  | entry ha =>
    cases h' with
    | entry ha' =>
      have he := RuleEntry.asks_iff.mp ha
      rw [RuleEntry.asks_iff.mp ha'] at he
      cases he
      rfl
  | assignment ha =>
    cases h' with
    | assignment ha' =>
      obtain ⟨rfl, rfl⟩ := ha.unique ha'
      rfl
  | remove =>
    cases h'
    rfl

theorem Asks.works_iff {request : RuleRequest} {asked : AskedRule} (h : request.Asks asked) :
    request.Works ↔ ∃ p, Pattern.compile .standard asked.pattern = .ok p := by
  constructor
  · rintro ⟨asked', _, h', p, hp, -⟩
    rw [h.unique h'] at hp
    exact ⟨p, hp⟩
  · exact fun ⟨p, hp⟩ => ⟨asked, _, h, p, hp, rfl⟩

theorem Fails.not_works {request : RuleRequest} {e : ConfigError} (h : request.Fails e) :
    ¬ request.Works := by
  cases h with
  | assignment hnone =>
    rintro ⟨_, _, ha, -⟩
    cases ha with
    | assignment ha => exact hnone _ _ ha
  | pattern ha he =>
    rw [ha.works_iff, he]
    rintro ⟨p, hp⟩
    cases hp

end RuleRequest

namespace RuleSources

/-- The entries of the rules file, if there is one. -/
def entries (sources : RuleSources) : RulesFile := sources.file.getD []

/-- All requests in order. -/
def requests (sources : RuleSources) : List RuleRequest :=
  sources.entries.map .entry ++ (sources.rename.map (.assignment .rename) ++
    (sources.remove.map .remove ++ sources.set.map (.assignment .set)))

end RuleSources

/-- The first request that does not become a rule fails with this error. -/
def FailsFirst (requests : List RuleRequest) (e : ConfigError) : Prop :=
  ∃ before request after, requests = before ++ request :: after ∧
    (∀ earlier ∈ before, earlier.Works) ∧ request.Fails e

/-- **The fault that is reported**: that of the first entry that asks for no action, or else that of
the first request that fails. -/
inductive RuleSources.FirstFault (sources : RuleSources) : ConfigError → Prop
  | entry {before after : List RuleEntry} {entry : RuleEntry} {fault : EntryFault} :
    sources.entries = before ++ entry :: after →
      (∀ earlier ∈ before, ∃ action, earlier.Asks action) → entry.Fails fault →
      FirstFault sources (.invalidRule (before.length + 1) entry.path fault)
  | request {e : ConfigError} :
    (∀ entry ∈ sources.entries, ∃ action, entry.Asks action) → FailsFirst sources.requests e →
      FirstFault sources e

/-! ## Parts of the setup -/

theorem FailsFirst.append_left {requests : List RuleRequest} {e : ConfigError}
    (h : FailsFirst requests e) (more : List RuleRequest) : FailsFirst (requests ++ more) e := by
  obtain ⟨before, request, after, rfl, hbefore, hf⟩ := h
  exact ⟨before, request, after ++ more, by simp, hbefore, hf⟩

theorem FailsFirst.append_right {first requests : List RuleRequest} {e : ConfigError}
    (hfirst : ∀ request ∈ first, request.Works) (h : FailsFirst requests e) :
    FailsFirst (first ++ requests) e := by
  obtain ⟨before, request, after, rfl, hbefore, hf⟩ := h
  refine ⟨first ++ before, request, after, by simp, fun earlier hm => ?_, hf⟩
  exact (List.mem_append.mp hm).elim (hfirst earlier) (hbefore earlier)

/-- Requests become rules, in order. -/
def BecomeRules (requests : List RuleRequest) (asked : List AskedRule) (rules : RuleSet) : Prop :=
  List.Forall₂ RuleRequest.Asks requests asked ∧ List.Forall₂ AskedRule.Becomes asked rules

theorem BecomeRules.works {requests : List RuleRequest} {asked : List AskedRule} {rules : RuleSet}
    (h : BecomeRules requests asked rules) : ∀ request ∈ requests, request.Works := by
  obtain ⟨ha, hr⟩ := h
  induction ha generalizing rules with
  | nil => exact fun _ hm => absurd hm List.not_mem_nil
  | cons ha _ ih =>
    cases hr with
    | cons hb hr => exact List.forall_mem_cons.mpr ⟨⟨_, _, ha, hb⟩, ih hr⟩

/-- The limits of patterns are the usual ones. -/
def RuleBuilder.Usual (b : RuleBuilder) : Prop := b.limits = .standard

/-- **A part of the setup carries out requests**: it adds a rule for each, or it fails at the first
one that does. -/
def CarriesOut (requests : List RuleRequest)
    (part : RuleBuilder → Except ConfigError RuleBuilder) : Prop :=
  ∀ b : RuleBuilder, b.Usual →
    (∃ asked rules, BecomeRules requests asked rules ∧
        part b = .ok { b with rules := b.rules ++ rules }) ∨
      ∃ e, FailsFirst requests e ∧ part b = .error e

section CarriesOut

variable {requests more : List RuleRequest}
  {part next : RuleBuilder → Except ConfigError RuleBuilder}

theorem carriesOut_nil : CarriesOut [] fun b => .ok b := by
  intro b _
  exact .inl ⟨[], [], ⟨.nil, .nil⟩, by rw [List.append_nil]⟩

/-- **Parts in a row.** -/
theorem CarriesOut.append (h : CarriesOut requests part) (hnext : CarriesOut more next) :
    CarriesOut (requests ++ more) fun b => part b >>= next := by
  intro b hb
  beta_reduce
  rcases h b hb with ⟨asked, rules, hrules, hok⟩ | ⟨e, hf, he⟩
  · rcases hnext { b with rules := b.rules ++ rules } hb with
      ⟨asked', rules', hrules', hok'⟩ | ⟨e, hf, he⟩
    -- the rules of the second part come behind those of the first
    · refine .inl ⟨asked ++ asked', rules ++ rules',
        ⟨List.rel_append hrules.1 hrules'.1, List.rel_append hrules.2 hrules'.2⟩, ?_⟩
      rw [hok, ← List.append_assoc]
      exact hok'
    · refine .inr ⟨e, hf.append_right hrules.works, ?_⟩
      rw [hok]
      exact he
  · refine .inr ⟨e, hf.append_left more, ?_⟩
    rw [he]
    rfl

theorem CarriesOut.foldlM {α : Type} {step : RuleBuilder → α → Except ConfigError RuleBuilder}
    {xs : List α}
    (h : List.Forall₂ (fun request x => CarriesOut [request] fun b => step b x) requests xs) :
    CarriesOut requests fun b => xs.foldlM step b := by
  induction h with
  | nil => exact carriesOut_nil
  | cons hx _ ih =>
    simp only [List.foldlM_cons]
    exact hx.append ih

theorem carriesOut_addAction {request : RuleRequest} {pattern : String} {action : Action}
    (h : request.Asks ⟨pattern, action⟩) :
    CarriesOut [request] fun b => b.addAction pattern action := by
  rintro ⟨rules, _⟩ rfl
  simp only [RuleBuilder.addAction, RuleBuilder.on]
  rcases hc : Pattern.compile .standard pattern with e | p
  · exact .inr ⟨_, ⟨[], request, [], rfl, by simp, .pattern h hc⟩, rfl⟩
  · exact .inl ⟨[⟨pattern, action⟩], [⟨.pattern p, .always action⟩],
      ⟨.cons h .nil, .cons ⟨p, hc, rfl⟩ .nil⟩, rfl⟩

theorem carriesOut_addAssignment (flag : AssignmentFlag) (argument : String) :
    CarriesOut [.assignment flag argument] fun b =>
      RuleSources.addAssignment flag flag.action b argument := by
  rcases splitAssignment_cases flag argument with ⟨pattern, value, ha, hs⟩ | ⟨hnone, hs⟩
  · simp only [RuleSources.addAssignment, hs]
    exact carriesOut_addAction (.assignment ha)
  · intro b _
    simp only [RuleSources.addAssignment, hs]
    exact .inr ⟨_, ⟨[], _, [], rfl, by simp, .assignment hnone⟩, rfl⟩

end CarriesOut

theorem actionsFrom_entries (file : RulesFile) : ∀ index : Nat,
    (∃ actions, RulesFile.actionsFrom index file = .ok actions ∧
        List.Forall₂ (fun entry x => entry.path = x.1 ∧ entry.Asks x.2) file actions) ∨
      ∃ before entry after fault, file = before ++ entry :: after ∧
        (∀ earlier ∈ before, ∃ action, earlier.Asks action) ∧ entry.Fails fault ∧
        RulesFile.actionsFrom index file =
          .error (.invalidRule (before.length + index) entry.path fault) := by
  induction file with
  | nil => exact fun _ => .inl ⟨[], rfl, .nil⟩
  | cons entry file ih =>
    intro index
    rw [RulesFile.actionsFrom]
    rcases entry.action_cases with ⟨action, ha, he⟩ | ⟨fault, hf, he⟩
    · rcases ih (index + 1) with
        ⟨actions, hok, hall⟩ | ⟨before, failing, after, fault, rfl, hbefore, hf, herror⟩
      · refine .inl ⟨(entry.path, action) :: actions, ?_, .cons ⟨rfl, ha⟩ hall⟩
        rw [he, hok]
        rfl
      · refine .inr ⟨entry :: before, failing, after, fault, rfl,
          List.forall_mem_cons.mpr ⟨⟨action, ha⟩, hbefore⟩, hf, ?_⟩
        rw [he, herror, List.length_cons, Nat.add_right_comm, Nat.add_assoc]
        rfl
    · refine .inr ⟨[], entry, file, fault, rfl, by simp, hf, ?_⟩
      rw [he, List.length_nil, Nat.zero_add]

/-! ## The whole setup -/

namespace RuleSources

variable {sources : RuleSources}

/-- What follows once all entries have given their actions. -/
def register (sources : RuleSources) (actions : List (String × Action)) (b : RuleBuilder) :
    Except ConfigError RuleBuilder :=
  actions.foldlM (fun b (path, action) => b.addAction path action) b >>= fun b =>
    sources.rename.foldlM (addAssignment .rename AssignmentFlag.rename.action) b >>= fun b =>
      sources.remove.foldlM (fun b pattern => b.addAction pattern .remove) b >>= fun b =>
        sources.set.foldlM (addAssignment .set AssignmentFlag.set.action) b

theorem build_eq (sources : RuleSources) :
    sources.build = RulesFile.actionsFrom 1 sources.entries >>= fun actions =>
      sources.register actions .new >>= fun b => pure b.rules := by
  simp only [build, RulesFile.applyTo, register, bind_assoc]
  rfl

theorem carriesOut_register {actions : List (String × Action)}
    (h : List.Forall₂ (fun entry x => entry.path = x.1 ∧ RuleEntry.Asks entry x.2) sources.entries
      actions) : CarriesOut sources.requests (sources.register actions) := by
  have hfile : CarriesOut (sources.entries.map .entry) fun b =>
      actions.foldlM (fun b (path, action) => b.addAction path action) b := by
    refine .foldlM (List.forall₂_map_left_iff.mpr (h.imp ?_))
    rintro entry ⟨path, action⟩ ⟨rfl, ha⟩
    exact carriesOut_addAction (.entry ha)
  have hassigned (flag : AssignmentFlag) (arguments : List String) :
      CarriesOut (arguments.map (.assignment flag)) fun b =>
        arguments.foldlM (addAssignment flag flag.action) b :=
    .foldlM (List.forall₂_map_left_iff.mpr (List.forall₂_same.mpr fun argument _ =>
      carriesOut_addAssignment flag argument))
  have hremove : CarriesOut (sources.remove.map .remove) fun b =>
      sources.remove.foldlM (fun b pattern => b.addAction pattern .remove) b :=
    .foldlM (List.forall₂_map_left_iff.mpr (List.forall₂_same.mpr fun pattern _ =>
      carriesOut_addAction .remove))
  exact hfile.append ((hassigned .rename sources.rename).append
    (hremove.append (hassigned .set sources.set)))

/-- **All requests become rules, or the first fault is reported.** -/
theorem build_cases (sources : RuleSources) :
    (∃ asked rules, BecomeRules sources.requests asked rules ∧ sources.build = .ok rules) ∨
      ∃ e, sources.FirstFault e ∧ sources.build = .error e := by
  rw [build_eq]
  rcases actionsFrom_entries sources.entries 1 with
    ⟨actions, hok, hall⟩ | ⟨before, entry, after, fault, hsplit, hbefore, hf, he⟩
  · have hentries : ∀ entry ∈ sources.entries, ∃ action, entry.Asks action :=
      ((List.forall₂_and_left _ _).mp (hall.imp fun _ x h => ⟨⟨x.2, h.2⟩, h⟩)).1
    rw [hok]
    rcases carriesOut_register hall .new rfl with ⟨asked, rules, hrules, hdone⟩ | ⟨e, hf, he⟩
    · refine .inl ⟨asked, rules, hrules, ?_⟩
      exact congrArg (· >>= fun b : RuleBuilder => pure b.rules) hdone
    · refine .inr ⟨e, .request hentries hf, ?_⟩
      exact congrArg (· >>= fun b : RuleBuilder => pure b.rules) he
  · refine .inr ⟨_, .entry hsplit hbefore hf, ?_⟩
    rw [he]
    rfl

/-- Nothing is wrong with the sources: entries ask for actions, arguments of the flags for which
they should be are assignments, and all patterns can be compiled. -/
structure Sound (sources : RuleSources) : Prop where
  entries : ∀ entry ∈ sources.entries, ∃ action, entry.Asks action
  assignments : ∀ argument ∈ sources.rename ++ sources.set,
    ∃ pattern value, Assigns argument pattern value
  patterns : ∀ request ∈ sources.requests, ∀ asked, request.Asks asked →
    ∃ p, Pattern.compile .standard asked.pattern = .ok p

theorem entry_mem_requests {entry : RuleEntry} :
    .entry entry ∈ sources.requests ↔ entry ∈ sources.entries := by
  simp [requests]

theorem assignment_mem_requests {argument : String} :
    (∃ flag, .assignment flag argument ∈ sources.requests) ↔
      argument ∈ sources.rename ++ sources.set := by
  constructor
  · rintro ⟨_ | _, hm⟩
    · exact List.mem_append_left _ (by simpa [requests] using hm)
    · exact List.mem_append_right _ (by simpa [requests] using hm)
  · intro hm
    rcases List.mem_append.mp hm with hm | hm
    · exact ⟨.rename, by simpa [requests] using hm⟩
    · exact ⟨.set, by simpa [requests] using hm⟩

theorem sound_iff : sources.Sound ↔ ∀ request ∈ sources.requests, request.Works := by
  constructor
  · intro h request hm
    have hasks : ∃ asked, request.Asks asked := by
      cases request with
      | entry entry =>
        obtain ⟨action, ha⟩ := h.entries entry (entry_mem_requests.mp hm)
        exact ⟨_, .entry ha⟩
      | assignment flag argument =>
        obtain ⟨pattern, value, ha⟩ :=
          h.assignments argument (assignment_mem_requests.mp ⟨flag, hm⟩)
        exact ⟨_, .assignment ha⟩
      | remove pattern => exact ⟨_, .remove⟩
    obtain ⟨asked, ha⟩ := hasks
    exact ha.works_iff.mpr (h.patterns request hm asked ha)
  · intro h
    refine ⟨fun entry hm => ?_, fun argument hm => ?_, fun request hm asked ha => ?_⟩
    · obtain ⟨_, _, ha, -⟩ := h _ (entry_mem_requests.mpr hm)
      cases ha with
      | entry ha => exact ⟨_, ha⟩
    · obtain ⟨flag, hm⟩ := assignment_mem_requests.mpr hm
      obtain ⟨_, _, ha, -⟩ := h _ hm
      cases ha with
      | assignment ha => exact ⟨_, _, ha⟩
    · exact ha.works_iff.mp (h request hm)

theorem FirstFault.not_sound {e : ConfigError} (h : sources.FirstFault e) : ¬ sources.Sound := by
  intro hs
  cases h with
  | @entry before after entry fault hsplit hbefore hf =>
    obtain ⟨action, ha⟩ := hs.entries entry (by rw [hsplit]; simp)
    rw [RuleEntry.asks_iff, RuleEntry.fails_iff.mp hf] at ha
    cases ha
  | request hall hf =>
    obtain ⟨before, request, after, hsplit, -, hf⟩ := hf
    exact hf.not_works (sound_iff.mp hs request (by rw [hsplit]; simp))

end RuleSources

/-! ## The rule that decides -/

/-- The first rule that matches a path, with its position, and what it does; or none matches. -/
inductive Decides (asked : List AskedRule) (path : Path) : Option (Nat × Action) → Prop
  | first {before after : List AskedRule} {rule : AskedRule} :
    asked = before ++ rule :: after → (∀ earlier ∈ before, ¬ earlier.Matches path) →
      rule.Matches path → Decides asked path (some (before.length, rule.action))
  | nothing : (∀ rule ∈ asked, ¬ rule.Matches path) → Decides asked path none

theorem AskedRule.Becomes.matches_iff {asked : AskedRule} {rule : Rule} (h : asked.Becomes rule)
    (path : Path) : asked.Matches path ↔ rule.matcher.accepts path = true := by
  obtain ⟨p, hp, rfl⟩ := h
  constructor
  · rintro ⟨p', hp', ha⟩
    rw [hp] at hp'
    cases hp'
    exact ha
  · exact fun ha => ⟨p, hp, ha⟩

theorem firstFrom_decides {asked : List AskedRule} {rules : RuleSet} (path : Path)
    (h : List.Forall₂ AskedRule.Becomes asked rules) : ∀ start : Nat,
    (∃ before rule after found, asked = before ++ rule :: after ∧
        (∀ earlier ∈ before, ¬ earlier.Matches path) ∧ rule.Matches path ∧ rule.Becomes found ∧
        rules.firstFrom? path start = some (before.length + start, found)) ∨
      (∀ rule ∈ asked, ¬ rule.Matches path) ∧ rules.firstFrom? path start = none := by
  induction h with
  | nil => exact fun _ => .inr ⟨fun _ hm => absurd hm List.not_mem_nil, rfl⟩
  | @cons first rule asked rules hfirst hrest ih =>
    intro start
    rw [RuleSet.firstFrom?]
    by_cases hm : first.Matches path
    · refine .inl ⟨[], first, asked, rule, rfl, by simp, hm, hfirst, ?_⟩
      rw [if_pos ((hfirst.matches_iff path).mp hm), List.length_nil, Nat.zero_add]
    · rw [if_neg fun ha => hm ((hfirst.matches_iff path).mpr ha)]
      rcases ih (start + 1) with
        ⟨before, decisive, after, found, rfl, hbefore, hdecides⟩ | ⟨hno, hnone⟩
      · refine .inl ⟨first :: before, decisive, after, found, rfl,
          List.forall_mem_cons.mpr ⟨hm, hbefore⟩, ?_⟩
        rwa [List.length_cons, Nat.add_right_comm, Nat.add_assoc]
      · exact .inr ⟨List.forall_mem_cons.mpr ⟨hm, hno⟩, hnone⟩

/-- **Rules that were asked for give the action of the first that matches.** -/
theorem evaluate_decides {asked : List AskedRule} {rules : RuleSet}
    (h : List.Forall₂ AskedRule.Becomes asked rules) (node : Node) :
    ∃ found, Decides asked node.path found ∧ rules.evaluate node = .ok found := by
  rw [RuleSet.evaluate, RuleSet.first?]
  rcases firstFrom_decides node.path h 0 with
    ⟨before, rule, after, found, hsplit, hbefore, hm, ⟨p, -, rfl⟩, hfound⟩ | ⟨hno, hnone⟩
  · rw [hfound]
    exact ⟨_, .first hsplit hbefore hm, rfl⟩
  · rw [hnone]
    exact ⟨none, .nothing hno, rfl⟩

/-- **Rules are set up in order**, if nothing is wrong with the sources: those of the file, then
those of the arguments that rename, remove and set. The first of them that matches a node says what
is done with it. Otherwise the first fault is reported. -/
theorem build_in_order (sources : RuleSources) :
    ((∃ rules, sources.build = .ok rules) ↔ sources.Sound) ∧
      (∀ rules, sources.build = .ok rules → ∃ asked, BecomeRules sources.requests asked rules ∧
        ∀ node, ∃ found, Decides asked node.path found ∧ rules.evaluate node = .ok found) ∧
      ∀ e, sources.build = .error e → sources.FirstFault e := by
  rcases sources.build_cases with ⟨asked, rules, hrules, hok⟩ | ⟨e, hf, he⟩
  · rw [hok]
    refine ⟨iff_of_true ⟨rules, rfl⟩ (RuleSources.sound_iff.mpr hrules.works), fun _ h => ?_,
      fun _ h => ?_⟩
    · cases h
      exact ⟨asked, hrules, evaluate_decides hrules.2⟩
    · cases h
  · rw [he]
    refine ⟨iff_of_false ?_ hf.not_sound, fun _ h => ?_, fun _ h => ?_⟩
    · rintro ⟨_, h⟩
      cases h
    · cases h
    · cases h
      exact hf

/-- Rules that overlap, and then a fault in the second argument that renames and later ones. -/
theorem build_in_order_overlapping :
    let sources : RuleSources :=
      ⟨some [⟨"$.a", some "b", false, none⟩], ["$.*=c=d"], ["$.x"], ["$.a=1"]⟩
    let broken : RuleSources :=
      { sources with rename := ["$.*=c=d", "$.a[", "$.b[=x"], set := ["=1"] }
    sources.Sound ∧ broken.FirstFault (.invalidArgument .rename "$.a[") := by
  intro sources broken
  have hok : ∃ rules, sources.build = .ok rules := ⟨_, rfl⟩
  have he : broken.build = .error (.invalidArgument .rename "$.a[") := rfl
  exact ⟨(build_in_order sources).1.mp hok, (build_in_order broken).2.2 _ he⟩

end JsonEdit
