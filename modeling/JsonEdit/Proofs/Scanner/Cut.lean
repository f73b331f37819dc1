import JsonEdit.Proofs.Scanner.Protocol
import JsonEdit.Proofs.Scanner.Scalars

/-!
# Cutting a text off

A text that is cut off ends where more bytes could come. The events then break off early: those
before the last are the first events of the whole text. Only a number may be cut so that what is
left of it is another number.

* `EndsEarly`: events that break off early;
* `CutsNumber`: such cuts in a number;
* **`finish_endsEarly`**: the end of the bytes in place of more of them;
* **`finish_endsEarly_number`**: in a number it stands for the same text with the rest of the
  number left out;
* `cut_endsEarly`, `cut_endsEarly_number`: the same for the first bytes of a text;
* `broken_endsEarly`, **`not_faultless_broken`**: a reader that fails.
-/

namespace JsonEdit

/-- The short events are first events of the long ones, but for an end or an error. -/
def EndsEarly (short long : List Event) : Prop :=
  ∃ common last more, short = common ++ last ∧ long = common ++ more ∧
    ∀ event ∈ last, event.IsLast

theorem EndsEarly.append {short long : List Event} (h : EndsEarly short long)
    (given : List Event) : EndsEarly (given ++ short) (given ++ long) := by
  obtain ⟨common, last, more, rfl, rfl, hl⟩ := h
  exact ⟨given ++ common, last, more, by simp, by simp, hl⟩

theorem EndsEarly.refl (events : List Event) : EndsEarly events events :=
  ⟨events, [], [], (List.append_nil _).symm, (List.append_nil _).symm, fun _ h => by cases h⟩

theorem endsEarly_of_isLast {short : List Event} (h : ∀ event ∈ short, event.IsLast)
    (long : List Event) : EndsEarly short long := ⟨[], short, long, rfl, rfl, h⟩

/-- What has been read of a number, once all these bytes have been taken as more of it. -/
def NumberPrefix.pushAll? (read : NumberPrefix) (bytes : List UInt8) :
    Option NumberPrefix :=
  bytes.foldlM (fun read b => read.push? (byteChar b)) read

namespace Scanner

variable {s : Scanner} {b : UInt8} {bytes : List UInt8}

/-- The scanner is in a number that is complete so far and goes on with the next byte. -/
def CutsNumber (s : Scanner) (b : UInt8) : Prop :=
  ∃ read number, s.mode = .number read ∧ read.number? = some number ∧
    (read.push? (byteChar b)).isSome = true

/-! ## The end of the bytes -/

theorem isLast_fail (s : Scanner) (fault : ScanFault) : ∀ event ∈ told (s.fail fault).1,
    event.IsLast := by
  intro event h
  rw [show told (s.fail fault).1 = [.error (ScanError.malformed fault s.position).message] from rfl,
    List.mem_singleton] at h
  rw [h]
  trivial

theorem isLast_finishBetween (s : Scanner) (expect : Expect) :
    ∀ event ∈ told (s.finishBetween expect).1, event.IsLast := by
  cases expect with
  | nothing =>
    intro event h
    rw [show told (s.finishBetween .nothing).1 = [.finish] from rfl, List.mem_singleton] at h
    rw [h]
    trivial
  | document | item | name | colon | memberValue => exact isLast_fail s _

theorem isLast_finish_settle (s : Scanner) : ∀ event ∈ told s.settle.finish.1, event.IsLast :=
  isLast_finishBetween s.settle s.afterValue

theorem endsEarly_scalar (s : Scanner) (value : Json) (tail : List Event) :
    EndsEarly (.scalar value :: told s.settle.finish.1) (.scalar value :: tail) :=
  (endsEarly_of_isLast (isLast_finish_settle s) tail).append [.scalar value]

/-- **The end of the bytes in place of more of them.** -/
theorem finish_endsEarly (hf : Faultless (told (s.remaining .complete (b :: bytes))))
    (hn : ¬ s.CutsNumber b) :
    EndsEarly (told s.finish.1) (told (s.remaining .complete (b :: bytes))) := by
  have hnil : s.remaining .complete [] = s.finish.1 := rfl
  cases hm : s.mode with
  | between expect =>
    refine endsEarly_of_isLast ?_ _
    rw [finish, hm]
    exact isLast_finishBetween s expect
  | literal literal rest late =>
    cases rest with
    | cons letter rest =>
      refine endsEarly_of_isLast ?_ _
      simp only [finish, hm]
      exact isLast_fail s _
    | nil =>
      obtain ⟨hsep, rfl⟩ := separated_of_literal hm hf
      rw [← hnil, remaining_literal hm separated_nil, remaining_literal hm hsep]
      exact endsEarly_scalar _ _ _
  | number read =>
    cases hr : read.number? with
    | none =>
      refine endsEarly_of_isLast ?_ _
      simp only [finish, hm, hr]
      exact isLast_fail s _
    | some number =>
      have hsep : Separated (b :: bytes) := by
        refine separated_of_number hm hr ?_ hf
        intro b' rest he
        cases he
        cases hp : read.push? (byteChar b) with
        | none => rfl
        | some read' => exact absurd ⟨read, number, hm, hr, by rw [hp]; rfl⟩ hn
      rw [← hnil, remaining_number hm hr separated_nil, remaining_number hm hr hsep]
      exact endsEarly_scalar _ _ _
  | string role reversed state =>
    refine endsEarly_of_isLast ?_ _
    simp only [finish, hm]
    cases state <;> exact isLast_fail s _
  | stopped =>
    refine endsEarly_of_isLast ?_ _
    simp [finish, hm, wait]

/-! ## In a number -/

theorem exists_number_rest (bytes : List UInt8) : ∀ {s : Scanner} {read : NumberPrefix},
    s.mode = .number read → ∃ more rest read', bytes = more ++ rest ∧
      read.pushAll? more = some read' ∧ (s.pushed more).1 = [] ∧
      (s.pushed more).2.mode = .number read' ∧
      ∀ b rest', rest = b :: rest' → read'.push? (byteChar b) = none := by
  induction bytes with
  | nil => exact fun {s read} hm => ⟨[], [], read, rfl, rfl, rfl, hm, fun _ _ h => by cases h⟩
  | cons b bytes ih =>
    intro s read hm
    cases hp : read.push? (byteChar b) with
    | none =>
      refine ⟨[], b :: bytes, read, rfl, rfl, rfl, hm, ?_⟩
      intro b' rest' h
      cases h
      exact hp
    | some read₁ =>
      have hpush : s.push b = ([], s.become (.number read₁)) := by
        simp only [push, hm, pushNumber, hp]
        rfl
      obtain ⟨more, rest, read', rfl, hall, hg, hm', hstay⟩ :=
        ih (s := s.become (.number read₁)) rfl
      refine ⟨b :: more, rest, read', rfl, ?_, ?_, ?_, hstay⟩
      · rw [NumberPrefix.pushAll?, List.foldlM_cons, hp]
        exact hall
      · rw [pushed, hpush]
        exact hg
      · rw [pushed, hpush]
        exact hm'

theorem number_of_faultless {read : NumberPrefix} (hm : s.mode = .number read)
    (hstay : ∀ b rest, bytes = b :: rest → read.push? (byteChar b) = none)
    (hf : Faultless (told (s.remaining .complete bytes))) :
    ∃ number, read.number? = some number := by
  cases hr : read.number? with
  | some number => exact ⟨number, rfl⟩
  | none =>
    cases bytes with
    | nil =>
      simp only [remaining, endWith, finish, hm, hr] at hf
      exact absurd hf (by simpa using not_faultless_fail s .malformedNumber [])
    | cons b bytes =>
      simp only [remaining, push, hm, pushNumber, hstay b bytes rfl, hr] at hf
      exact absurd hf (not_faultless_fail _ _ _)

/-- **The end of the bytes in a number** that is complete so far: the rest of the number is left
out, and it is another number that comes first. -/
theorem finish_endsEarly_number {read : NumberPrefix} {number : Number}
    (hm : s.mode = .number read) (hn : read.number? = some number)
    (hf : Faultless (told (s.remaining .complete bytes))) :
    ∃ more rest read', bytes = more ++ rest ∧ read.pushAll? more = some read' ∧
      (s.pushed more).2.mode = .number read' ∧ Separated rest ∧
      EndsEarly (told s.finish.1) (told (s.remaining .complete rest)) ∧
      ∃ value value' last tail, told s.finish.1 = .scalar value :: last ∧
        (∀ event ∈ last, event.IsLast) ∧
        told (s.remaining .complete bytes) = .scalar value' :: tail := by
  obtain ⟨more, rest, read', rfl, hmore, hg, hm', hstay⟩ := exists_number_rest bytes hm
  rw [remaining_append, hg, List.nil_append] at hf ⊢
  obtain ⟨number', hn'⟩ := number_of_faultless hm' hstay hf
  have hsep := separated_of_number hm' hn' hstay hf
  have hnil : s.remaining .complete [] = s.finish.1 := rfl
  refine ⟨more, rest, read', rfl, hmore, hm', hsep, ?_, ?_⟩
  · rw [← hnil, remaining_number hm hn separated_nil, remaining_number hm hn hsep]
    exact endsEarly_scalar _ _ _
  · have hshort := congrArg told (remaining_number hm hn separated_nil)
    have hlong := congrArg told (remaining_number hm' hn' hsep)
    rw [hnil] at hshort
    exact ⟨_, _, _, _, hshort, isLast_finish_settle _, hlong⟩

/-! ## The first bytes of a text -/

theorem told_remaining (s : Scanner) (before : List UInt8) :
    told (s.remaining .complete before) =
      told (s.pushed before).1 ++ told (s.pushed before).2.finish.1 := by
  have h := told_remaining_append .complete before [] s
  rw [List.append_nil] at h
  rw [h]
  rfl

theorem faultless_rest {before : List UInt8}
    (hf : Faultless (told (s.remaining .complete (before ++ bytes)))) :
    Faultless (told ((s.pushed before).2.remaining .complete bytes)) := by
  intro message hm
  rw [told_remaining_append] at hf
  exact hf message (List.mem_append_right _ hm)

/-- **A text cut off**, but not in a number that is complete so far. -/
theorem cut_endsEarly {before : List UInt8}
    (hf : Faultless (told (s.remaining .complete (before ++ b :: bytes))))
    (hn : ¬ (s.pushed before).2.CutsNumber b) :
    EndsEarly (told (s.remaining .complete before))
      (told (s.remaining .complete (before ++ b :: bytes))) := by
  rw [told_remaining, told_remaining_append]
  exact (finish_endsEarly (faultless_rest hf) hn).append _

/-- **A text cut off in a number** that is complete so far: it breaks off as the text without the
rest of the number does, and with a scalar where the whole text has another one. -/
theorem cut_endsEarly_number {before : List UInt8}
    (hf : Faultless (told (s.remaining .complete (before ++ b :: bytes))))
    (hc : (s.pushed before).2.CutsNumber b) :
    ∃ more rest read read', b :: bytes = more ++ rest ∧ (s.pushed before).2.mode = .number read ∧
      read.pushAll? more = some read' ∧ (s.pushed (before ++ more)).2.mode = .number read' ∧
      Separated rest ∧
      EndsEarly (told (s.remaining .complete before))
        (told (s.remaining .complete (before ++ rest))) ∧
      ∃ given value value' last tail,
        told (s.remaining .complete before) = given ++ .scalar value :: last ∧
        (∀ event ∈ last, event.IsLast) ∧
        told (s.remaining .complete (before ++ b :: bytes)) = given ++ .scalar value' :: tail := by
  obtain ⟨read, number, hm, hnum, -⟩ := hc
  obtain ⟨more, rest, read', hsplit, hmore, hm', hsep, hends, value, value', last, tail, hfin, hl,
    hrem⟩ := finish_endsEarly_number hm hnum (faultless_rest hf)
  refine ⟨more, rest, read, read', hsplit, hm, hmore, ?_, hsep, ?_, told (s.pushed before).1, value,
    value', last, tail, ?_, hl, ?_⟩
  · rw [pushed_append]
    exact hm'
  · rw [told_remaining, told_remaining_append]
    exact hends.append _
  · rw [told_remaining, hfin]
  · rw [told_remaining_append, hrem]

/-! ## A reader that fails -/

theorem isLast_breakOff (s : Scanner) (reason : String) :
    ∀ event ∈ told (s.breakOff reason).1, event.IsLast := by
  intro event h
  unfold breakOff at h
  split at h
  · cases h
  · rw [show told (s.stop (.input reason s.position)).1 =
      [.error (ScanError.input reason s.position).message] from rfl, List.mem_singleton] at h
    rw [h]
    trivial

theorem broken_endsEarly (s : Scanner) (reason : String) (before after : List UInt8) :
    EndsEarly (told (s.remaining (.broken reason) before))
      (told (s.remaining .complete (before ++ after))) := by
  have h := told_remaining_append (.broken reason) before [] s
  rw [List.append_nil] at h
  rw [h, told_remaining_append]
  exact (endsEarly_of_isLast (isLast_breakOff _ reason) _).append _

/-- **A reader that fails is never taken for the end of the text**, not even where the document is
over. -/
theorem not_faultless_broken (reason : String) (bytes : List UInt8) :
    ∀ {s : Scanner} {x : Outlook}, Stands s.opened s.mode x →
      ¬ Faultless (told (s.remaining (.broken reason) bytes)) := by
  induction bytes with
  | nil =>
    intro s x h hf
    refine hf (ScanError.input reason s.position).message ?_
    rw [remaining, endWith, breakOff_eq h]
    exact List.mem_singleton_self _
  | cons b bytes ih =>
    intro s x h hf
    have ho := push_outcome h b
    rw [remaining, told, List.map_append] at hf
    rcases hp : s.push b with ⟨events, s'⟩
    rw [hp] at ho hf
    cases ho with
    | goesOn hmoves hs hlen =>
      exact ih hs fun message hm => hf message (List.mem_append_right _ hm)
    | fails message depth hmoves hs hlen =>
      refine hf message (List.mem_append_left _ ?_)
      rw [List.map_append]
      exact List.mem_append_right _ (List.mem_singleton_self _)

end Scanner

end JsonEdit
