import JsonEdit.Proofs.Editor.Feed
import JsonEdit.Proofs.Source.Drain
import JsonEdit.Stream.Basic

/-!
# What a pipeline comes to

A pipeline may read block by block and byte by byte; what it comes to is one run of the editor, on
the events of everything that was read.

* `Pipeline.reply`: the editor's side of a pipeline;
* **`reply_toEnd`**: bytes and their end are one run of the editor;
* **`readFrom_eq`**: a source is read as if all it gives came at once;
* `readFrom_rest`: nothing is left of a source that is read without an error;
* `editText_eq`, **`editStream_eq`**: the runs of a text and of a stream.
-/

namespace JsonEdit

/-- The error of a whole run: the one that stopped the editor, or that the end was not reached. -/
def Reply.error? {σ : Type} (r : Reply σ) : Option EditError :=
  match r.result with
  | .error e => some e
  | .ok _ => if r.editor.phase = .finished then none else some (.unexpectedEnd r.editor.depth)

theorem Reply.of_error? {σ : Type} {r : Reply σ} (h : r.error? = none) :
    r.result = .ok () ∧ r.editor.phase = .finished := by
  unfold error? at h
  split at h
  · cases h
  · next hok =>
    split at h
    · next hp => exact ⟨hok, hp⟩
    · cases h

theorem Reply.error?_of_error {σ : Type} {r : Reply σ} {e : EditError} (h : r.result = .error e) :
    r.error? = some e := by
  rw [error?, h]

theorem Reply.error?_of_finished {σ : Type} {r : Reply σ} (h : r.result = .ok ())
    (hp : r.editor.phase = .finished) : r.error? = none := by
  rw [error?, h]
  exact if_pos hp

namespace Pipeline

variable {σ : Type}

/-- What the editor of a pipeline has come to. -/
def reply (p : Pipeline σ) : Reply σ :=
  ⟨p.editor, p.sink, p.calls,
    match p.failure with
    | none => .ok ()
    | some e => .error e⟩

theorem error?_eq (p : Pipeline σ) : p.error? = p.reply.error? := by
  unfold error? reply Reply.error?
  cases p.failure <;> rfl

variable [FragmentSink σ] {rules : RuleSet}

/-- The bytes end. -/
def endWith (rules : RuleSet) (p : Pipeline σ) : Ending → Pipeline σ
  | .complete => p.finish rules
  | .broken reason => p.breakOff rules reason

/-- Bytes in turn, and then their end. -/
def toEnd (rules : RuleSet) (p : Pipeline σ) (ending : Ending) (bytes : List UInt8) : Pipeline σ :=
  (p.pushAll rules bytes).endWith rules ending

/-! ## One run of the editor -/

theorem reply_handleAll (rules : RuleSet) (p : Pipeline σ) (scanned : List Scanned × Scanner) :
    (p.handleAll rules scanned).reply = p.editor.run rules p.sink p.calls (told scanned.1) := by
  unfold handleAll
  rcases p.editor.run rules p.sink p.calls (told scanned.1) with ⟨editor, sink, calls, _ | _⟩ <;>
    rfl

theorem scanner_handleAll (rules : RuleSet) (p : Pipeline σ) (scanned : List Scanned × Scanner) :
    (p.handleAll rules scanned).scanner = scanned.2 := by
  unfold handleAll
  split <;> rfl

theorem pushAll_of_stopped {p : Pipeline σ} (h : p.stopped = true) (bytes : List UInt8) :
    p.pushAll rules bytes = p := by
  induction bytes with
  | nil => rfl
  | cons b bytes ih => rw [pushAll, List.foldl_cons, push, if_pos h]; exact ih

theorem endWith_of_stopped {p : Pipeline σ} (h : p.stopped = true) (ending : Ending) :
    p.endWith rules ending = p := by
  cases ending with
  | complete => exact if_pos h
  | broken reason => exact if_pos h

theorem toEnd_of_stopped {p : Pipeline σ} (h : p.stopped = true) (ending : Ending)
    (bytes : List UInt8) : p.toEnd rules ending bytes = p := by
  rw [toEnd, pushAll_of_stopped h, endWith_of_stopped h]

theorem endWith_eq {p : Pipeline σ} (h : p.stopped = false) (ending : Ending) :
    p.endWith rules ending = p.handleAll rules (p.scanner.endWith ending) := by
  cases ending with
  | complete => exact if_neg (by rw [h]; decide)
  | broken reason => exact if_neg (by rw [h]; decide)

theorem toEnd_append (p : Pipeline σ) (ending : Ending) (before after : List UInt8) :
    p.toEnd rules ending (before ++ after) = (p.pushAll rules before).toEnd rules ending after := by
  rw [toEnd, toEnd, pushAll, List.foldl_append]
  rfl

/-- **Bytes and their end are one run of the editor.** -/
theorem reply_toEnd (rules : RuleSet) (ending : Ending) (bytes : List UInt8) : ∀ {p : Pipeline σ},
    p.stopped = false → (p.toEnd rules ending bytes).reply =
      p.editor.run rules p.sink p.calls (told (p.scanner.remaining ending bytes)) := by
  induction bytes with
  | nil =>
    intro p h
    rw [toEnd, pushAll, List.foldl_nil, endWith_eq h, reply_handleAll]
    rfl
  | cons b bytes ih =>
    intro p h
    have hpush : p.pushAll rules [b] = p.handleAll rules (p.scanner.push b) :=
      if_neg (by rw [h]; decide)
    rw [← List.singleton_append, toEnd_append, hpush, List.singleton_append, Scanner.remaining,
      told, List.map_append, Editor.run_append, ← reply_handleAll]
    have hs := scanner_handleAll rules p (p.scanner.push b)
    cases hf : (p.handleAll rules (p.scanner.push b)).failure with
    | none =>
      rw [ih (by simp [stopped, hf]), hs]
      simp only [reply, hf]
    | some e =>
      rw [toEnd_of_stopped (by simp [stopped, hf])]
      simp only [reply, hf]

/-! ## Reading a source -/

variable {τ : Type} [ByteSource τ]

theorem readFrom_of_error {source source' : Counted τ} {reason : String}
    (h : source.read blockSize = (.error reason, source')) (p : Pipeline σ) :
    p.readFrom rules source = (p.breakOff rules reason, source') := by
  rw [readFrom]
  split
  · next h' => rw [h] at h'; cases h'; rfl
  · next h' => rw [h] at h'; cases h'
  · next h' => rw [h] at h'; cases h'

theorem readFrom_of_end {source source' : Counted τ}
    (h : source.read blockSize = (.ok [], source')) (p : Pipeline σ) :
    p.readFrom rules source = (p.finish rules, source') := by
  rw [readFrom]
  split
  · next h' => rw [h] at h'; cases h'
  · next h' => rw [h] at h'; cases h'; rfl
  · next h' => rw [h] at h'; cases h'

theorem readFrom_of_block {source source' : Counted τ} {b : UInt8} {bytes : List UInt8}
    (h : source.read blockSize = (.ok (b :: bytes), source')) (p : Pipeline σ) :
    p.readFrom rules source =
      if (p.pushAll rules (b :: bytes)).stopped then (p.pushAll rules (b :: bytes), source')
      else (p.pushAll rules (b :: bytes)).readFrom rules source' := by
  rw [readFrom]
  split
  · next h' => rw [h] at h'; cases h'
  · next h' => rw [h] at h'; cases h'
  · next h' => rw [h] at h'; cases h'; rfl

/-- **A source is read as if all it gives came at once.** -/
theorem readFrom_eq (rules : RuleSet) (source : Counted τ) : ∀ p : Pipeline σ,
    (p.readFrom rules source).1 = p.toEnd rules source.drain.2.1 source.drain.1 := by
  induction source using Counted.drain_induction with
  | failed source reason source' h =>
    intro p
    rw [readFrom_of_error h, Counted.drain_of_error h]
    rfl
  | ended source source' h =>
    intro p
    rw [readFrom_of_end h, Counted.drain_of_end h]
    rfl
  | block source b bytes source' h ih =>
    intro p
    rw [readFrom_of_block h, Counted.drain_of_block h, toEnd_append]
    split
    · next hp => rw [toEnd_of_stopped hp]
    · exact ih _

theorem readFrom_rest (rules : RuleSet) (source : Counted τ) : ∀ p : Pipeline σ,
    (p.readFrom rules source).1.stopped = false →
      (p.readFrom rules source).2 = source.drain.2.2 := by
  induction source using Counted.drain_induction with
  | failed source reason source' h =>
    intro p _
    rw [readFrom_of_error h, Counted.drain_of_error h]
  | ended source source' h =>
    intro p _
    rw [readFrom_of_end h, Counted.drain_of_end h]
  | block source b bytes source' h ih =>
    intro p hp
    rw [readFrom_of_block h] at hp ⊢
    rw [Counted.drain_of_block h]
    split at hp
    · next hs =>
      rw [hs] at hp
      cases hp
    · next hs =>
      rw [if_neg hs]
      exact ih _ hp

theorem readFrom_keeps (rules : RuleSet) (holds : Counted τ → Prop)
    (hread : ∀ {source source' : Counted τ} {n : Nat} {result : Except String (List UInt8)},
      source.read n = (result, source') → holds source → holds source') (source : Counted τ) :
    ∀ p : Pipeline σ, holds source → holds (p.readFrom rules source).2 := by
  induction source using Counted.drain_induction with
  | failed source reason source' h =>
    intro p hs
    rw [readFrom_of_error h]
    exact hread h hs
  | ended source source' h =>
    intro p hs
    rw [readFrom_of_end h]
    exact hread h hs
  | block source b bytes source' h ih =>
    intro p hs
    rw [readFrom_of_block h]
    split
    · exact hread h hs
    · exact ih _ (hread h hs)

end Pipeline

/-! ## Texts and streams -/

/-- The events of a text. -/
def textEvents (text : String) : List Event :=
  told ((Scanner.new none).remaining .complete (utf8 text))

/-- The events of all that a source gives within a limit. -/
def streamEvents {τ : Type} [ByteSource τ] (source : τ) (limit : Option Nat) : List Event :=
  let given := (Counted.new source limit).drain
  told ((Scanner.new none).remaining given.2.1 given.1)

theorem streamEvents_eq {τ : Type} [ByteSource τ] {source : τ} (hr : ByteSource.Reliable source)
    (limit : Option Nat) : streamEvents source limit = told ((Scanner.new none).remaining .complete
      (Counted.within limit (ByteSource.pending source))) := by
  obtain ⟨hb, he⟩ := Counted.drain_new hr limit
  simp only [streamEvents, hb, he]

theorem reply_readFrom {τ σ : Type} [ByteSource τ] [FragmentSink σ] (rules : RuleSet)
    (editor : Editor) (sink : σ) (source : τ) (limit : Option Nat) :
    ((Pipeline.new editor sink).readFrom rules (Counted.new source limit)).1.reply =
      editor.run rules sink #[] (streamEvents source limit) := by
  rw [Pipeline.readFrom_eq, Pipeline.reply_toEnd rules _ _ rfl]
  rfl

/-- **A text is edited** by one run of the editor on its events. -/
theorem editText_eq (rules : RuleSet) (text : String) :
    editText rules text =
      let r := (Editor.new DepthLimit.standard).run rules "" #[] (textEvents text)
      ⟨match r.error? with
        | none => .ok r.editor.stats
        | some e => .error e, r.calls, r.sink⟩ := by
  have h := Pipeline.reply_toEnd rules .complete (utf8 text)
    (p := Pipeline.new (.new DepthLimit.standard) "") rfl
  have hrun : (Editor.new DepthLimit.standard).run rules "" #[] (textEvents text) =
      ((Pipeline.new (.new DepthLimit.standard) "").toEnd rules .complete (utf8 text)).reply :=
    h.symm
  simp only [hrun, ← Pipeline.error?_eq]
  unfold editText Pipeline.toEnd Pipeline.endWith
  simp only
  generalize ((Pipeline.new (.new DepthLimit.standard) "").pushAll rules (utf8 text)).finish rules = p
  cases p.error? with
  | none | some e => rfl

/-- What a stream comes to after a run of the editor, when this much of the source is left. -/
def endRun {τ ω : Type} [ByteSink ω] (source : Counted τ) (r : Reply (Writer (Buffered ω))) :
    Run Summary ω :=
  let ended := match r.error? with
    | some e => endFailed source r.sink e
    | none => endComplete source r.sink r.editor.stats
  ⟨ended.1, r.calls, ended.2⟩

theorem endFailed_result {τ ω : Type} [ByteSink ω] (source : Counted τ) (w : Writer (Buffered ω))
    (e : EditError) : (endFailed source w e).1 = .error e ∨
      ∃ limit, source.exceeded = true ∧ source.limit = some limit ∧
        (endFailed source w e).1 = .error (.limit (.inputTooLong limit)) := by
  simp only [endFailed]
  split
  · next limit hx hl => exact .inr ⟨limit, hx, hl, rfl⟩
  · exact .inl rfl

/-- A run that fails: the input was too long, or not everything could be passed on, or the editor
failed. -/
theorem endRun_error {τ ω : Type} [ByteSink ω] {source : Counted τ}
    {r : Reply (Writer (Buffered ω))} {e : EditError} (h : (endRun source r).result = .error e) :
    (∃ limit, e = .limit (.inputTooLong limit)) ∨ (∃ message, e = .transfer message) ∨
      r.error? = some e := by
  unfold endRun at h
  rcases hr : r.error? with _ | e' <;> rw [hr] at h
  · simp only [endComplete] at h
    split at h
    · cases h
    · cases h
      exact .inr (.inl ⟨_, rfl⟩)
  · simp only at h
    rcases endFailed_result source r.sink e' with he | ⟨limit, -, -, he⟩
    · rw [he] at h
      cases h
      exact .inr (.inr rfl)
    · rw [he] at h
      cases h
      exact .inl ⟨limit, rfl⟩

theorem withLimit_cases (maxDepth : Nat) :
    (∃ fault, Editor.withLimit maxDepth = .error (.limit fault)) ∨
      Editor.withLimit maxDepth = .ok (.new maxDepth) := by
  unfold Editor.withLimit DepthLimit.validate
  split
  · exact .inl ⟨_, rfl⟩
  · split
    · exact .inl ⟨_, rfl⟩
    · exact .inr rfl

theorem editStream_refused {τ ω : Type} [ByteSource τ] [ByteSink ω] {rules : RuleSet}
    {options : StreamOptions} {source : τ} {sink : ω} {e : EditError}
    (hd : Editor.withLimit options.maxDepth = .error e) :
    editStream rules options source sink = ⟨.error e, #[], sink⟩ := by
  rw [editStream, hd]

/-- **A stream is edited** by one run of the editor on its events. What is left of the source is
what reads leave, and all has been read if nothing fails. -/
theorem editStream_eq {τ ω : Type} [ByteSource τ] [ByteSink ω] (rules : RuleSet)
    (options : StreamOptions) (source : τ) (sink : ω) {editor : Editor}
    (hd : Editor.withLimit options.maxDepth = .ok editor) :
    let start := Counted.new source options.maxInputBytes
    let r := editor.run rules (Writer.mk (Buffered.new sink) options.flushEach) #[]
      (streamEvents source options.maxInputBytes)
    ∃ source' : Counted τ, source'.limit = options.maxInputBytes ∧
      source'.Balanced (ByteSource.pending source).length ∧
      (r.error? = none → source'.bytesRead = start.drain.1.length) ∧
      editStream rules options source sink = endRun source' r := by
  let p := Pipeline.new editor (Writer.mk (Buffered.new sink) options.flushEach)
  let start := Counted.new source options.maxInputBytes
  intro start' r
  have hreply : (p.readFrom rules start).1.reply = r := reply_readFrom rules editor _ source _
  refine ⟨(p.readFrom rules start).2, ?_, ?_, ?_, ?_⟩
  · refine Pipeline.readFrom_keeps rules (fun c => c.limit = options.maxInputBytes) ?_ start p rfl
    intro c c' n result hread hc
    rw [Counted.read_limit hread, hc]
  · refine Pipeline.readFrom_keeps rules (Counted.Balanced (ByteSource.pending source).length) ?_
      start p (Counted.balanced_new source _)
    intro c c' n result hread hc
    exact hc.read hread
  · intro he
    have hgo : (p.readFrom rules start).1.stopped = false := by
      rw [← hreply, ← Pipeline.error?_eq] at he
      unfold Pipeline.error? at he
      unfold Pipeline.stopped
      cases hf : (p.readFrom rules start).1.failure with
      | none => rfl
      | some e => rw [hf] at he; cases he
    rw [Pipeline.readFrom_rest rules start p hgo, Counted.drain_bytesRead]
    exact Nat.zero_add _
  · have hend : editStream rules options source sink =
        endRun (p.readFrom rules start).2 (p.readFrom rules start).1.reply := by
      unfold editStream endRun
      rw [hd, ← Pipeline.error?_eq]
      rfl
    rw [hend, hreply]

end JsonEdit
