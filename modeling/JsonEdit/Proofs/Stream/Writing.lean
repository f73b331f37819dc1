import JsonEdit.Proofs.Editor.SinkFailure
import JsonEdit.Proofs.Sink.Keeper
import JsonEdit.Proofs.Stream.Pipeline

/-!
# What a stream leaves in its sink

A stream writes what the editor gives out for a text. A sink with room for so many bytes gets the
first of them, and the run is reported as complete only if it got all.

* `follows_text`: a writer acts like a text until its sink is full;
* `endComplete_intact`, `endFailed_intact`, `endFailed_stuck`: the end of a run;
* `Kept`: a stream beside the run of the editor with a text; **`editStream_kept`**;
* **`editStream_unlimited`**: a sink that takes everything;
* `editStream_bytes`, **`editStream_same_bytes`**: of a source only its bytes count;
* `editStream_empty`: a stream without bytes;
* `editStream_shorter`: a stream whose events break off early;
* `faultless_of_accepted`: an accepted stream has no faults.
-/

namespace JsonEdit

open Keeper

variable {τ ω : Type} [Keeper ω] {lim : Option Nat}

/-! ## Fragments -/

/-- A writer has carried a text behind some bytes. -/
def Carries (lim : Option Nat) (start : List UInt8) (w : Writer (Buffered ω)) (text : String) :
    Prop := w.out.Intact lim (start ++ utf8 text)

/-- The sink of a writer is full, of the first of these bytes. -/
def Overfills (lim : Option Nat) (start : List UInt8) (w : Writer (Buffered ω)) (text : String) :
    Prop := w.out.Stuck lim (start ++ utf8 text)

/-- **A writer acts like a text until its sink is full.** -/
theorem follows_text (lim : Option Nat) (start : List UInt8) :
    FragmentSink.Follows (Carries (ω := ω) lim start) (Overfills lim start) where
  emit w text fragment h := by
    have htext : start ++ utf8 (text ++ fragment) = start ++ utf8 text ++ utf8 fragment := by
      rw [utf8_append, List.append_assoc]
    refine ⟨rfl, ?_⟩
    simp only [Carries, Overfills, FragmentSink.emit_text, htext]
    rcases h.emit fragment with ⟨w', he, hw⟩ | ⟨message, w', he, hw⟩
    · rw [show FragmentSink.emit w fragment = w.emit fragment from rfl, he]
      exact .inl ⟨rfl, hw⟩
    · rw [show FragmentSink.emit w fragment = w.emit fragment from rfl, he]
      exact .inr ⟨⟨message, rfl⟩, hw⟩
  goesOn w text fragment h := by
    have hw : w.out.Stuck lim _ := h.append (utf8 fragment)
    rwa [List.append_assoc, ← utf8_append] at hw

/-! ## The end -/

theorem endComplete_intact {w : Writer (Buffered ω)} {bytes : List UInt8}
    (h : w.out.Intact lim bytes) (source : Counted τ) (stats : Stats) :
    taken (endComplete source w stats).2 = Counted.within lim bytes ∧
      ((endComplete source w stats).1 = .ok ⟨stats, source.bytesRead⟩ ∧
          (∀ n, lim = some n → bytes.length ≤ n) ∨
        (∃ e, (endComplete source w stats).1 = .error e) ∧ ∃ n, lim = some n ∧ n ≤ bytes.length) := by
  unfold endComplete
  rw [Writer.flush, show ByteSink.flush w.out = w.out.flush from rfl]
  rcases h.flush with ⟨out, he, hw, hb⟩ | ⟨message, out, he, hw, hf⟩
  · rw [he]
    refine ⟨hw.close_taken, .inl ⟨rfl, fun n hn => ?_⟩⟩
    have hall := hw.content
    rw [hb] at hall
    have hlen := length_taken_le out.inner n (hw.limit.trans hn)
    rwa [show taken out.inner = bytes by simpa using hall] at hlen
  · rw [he]
    exact ⟨hw.close_taken, .inr ⟨⟨_, rfl⟩, _, hw.limit.symm.trans hf, (hw.stuck hf).first.length_le⟩⟩

theorem endFailed_intact {w : Writer (Buffered ω)} {bytes : List UInt8}
    (h : w.out.Intact lim bytes) (source : Counted τ) (e : EditError) :
    taken (endFailed source w e).2 = Counted.within lim bytes := by
  simp only [endFailed, Writer.flush, show ByteSink.flush w.out = w.out.flush from rfl]
  rcases h.flush with ⟨out, he, hw, -⟩ | ⟨message, out, he, hw, -⟩ <;>
  · rw [he]
    exact hw.close_taken

theorem endFailed_stuck {w : Writer (Buffered ω)} {bytes : List UInt8}
    (h : w.out.Stuck lim bytes) (source : Counted τ) (e : EditError) :
    taken (endFailed source w e).2 = Counted.within lim bytes := h.flush.close_taken

/-! ## Streams -/

/-- A stream, beside the run of the editor that writes the same to a text. -/
structure Kept (options : StreamOptions) [ByteSource τ] (source : τ) (sink : ω) (r : Reply String)
    (run : Run Summary ω) : Prop where
  /-- The sink gets the bytes of the text, within its limit. -/
  written : taken run.sink = Counted.within (limit sink) (taken sink ++ utf8 r.sink)
  calls : run.calls.toList <+: r.calls.toList
  /-- Success means that the editor came to the end and that the sink got everything. -/
  complete : ∀ summary, run.result = .ok summary → r.error? = none ∧
    summary = ⟨r.editor.stats, (Counted.new source options.maxInputBytes).drain.1.length⟩ ∧
    ∀ n, limit sink = some n → (taken sink ++ utf8 r.sink).length ≤ n
  /-- Where there is more room than needed, the run is that of the editor. -/
  roomy : (∀ n, limit sink = some n → (taken sink ++ utf8 r.sink).length < n) →
    run.calls = r.calls ∧
      (r.error? = none → run.result =
        .ok ⟨r.editor.stats, (Counted.new source options.maxInputBytes).drain.1.length⟩) ∧
      ∀ e, r.error? = some e → run.result = .error e ∨
        ∃ limit, options.maxInputBytes = some limit ∧ limit < (ByteSource.pending source).length ∧
          run.result = .error (.limit (.inputTooLong limit))

section Kept

variable [ByteSource τ] {options : StreamOptions} {source : τ} {sink : ω} {source' : Counted τ}
  {r : Reply String} {r' : Reply (Writer (Buffered ω))}

theorem kept_of_alike (hl : source'.limit = options.maxInputBytes)
    (hb : source'.Balanced (ByteSource.pending source).length)
    (hread : r'.error? = none →
      source'.bytesRead = (Counted.new source options.maxInputBytes).drain.1.length)
    (h : r'.Alike (Carries (limit sink) (taken sink)) r) :
    Kept options source sink r (endRun source' r') := by
  have herror : r'.error? = r.error? := by
    unfold Reply.error?
    rw [h.result, h.editor]
  have hcalls : r'.calls.toList <+: r.calls.toList := h.calls ▸ List.prefix_rfl
  rcases hr : r.error? with _ | e
  · have hcount := hread (herror.trans hr)
    obtain ⟨hw, hend⟩ := endComplete_intact h.sink source' r'.editor.stats
    rw [hcount, h.editor] at hend
    simp only [endRun, herror, hr, h.editor] at hw ⊢
    refine ⟨hw, hcalls, fun summary hok => ?_, fun hroom => ⟨h.calls, fun _ => ?_, ?_⟩⟩
    · rcases hend with ⟨he, hfit⟩ | ⟨⟨e, he⟩, -⟩
      · rw [he] at hok
        cases hok
        exact ⟨hr, rfl, hfit⟩
      · rw [he] at hok
        cases hok
    · rcases hend with ⟨he, -⟩ | ⟨-, n, hn, hle⟩
      · exact he
      · exact absurd (hroom n hn) (Nat.not_lt.mpr hle)
    · intro e he
      rw [hr] at he
      cases he
  · simp only [endRun, herror, hr]
    refine ⟨endFailed_intact h.sink source' e, hcalls, fun summary hok => ?_,
      fun _ => ⟨h.calls, fun hnone => ?_, fun e' he' => ?_⟩⟩
    · cases hok
    · rw [hr] at hnone
      cases hnone
    · rw [hr] at he'
      cases he'
      -- a source that has gone over its limit turns the error into that of the limit
      rcases endFailed_result source' r'.sink e with he | ⟨n, hx, hlim, he⟩
      · exact .inl he
      · obtain ⟨n', hn', hlt⟩ := hb.exceeded hx
        rw [hlim] at hn'
        cases hn'
        exact .inr ⟨n, hl ▸ hlim, hlt, he⟩

theorem kept_of_stopsShort (h : r'.StopsShort (Overfills (limit sink) (taken sink)) r) :
    Kept options source sink r (endRun source' r') := by
  obtain ⟨⟨message, hresult⟩, hcalls, hstuck⟩ := h
  have herror : r'.error? = some (.transfer message) := by rw [Reply.error?, hresult]
  simp only [endRun, herror]
  refine ⟨endFailed_stuck hstuck source' (.transfer message), hcalls,
    fun summary hok => (by cases hok), fun hroom => ?_⟩
  have hle := hstuck.first.length_le
  exact absurd (hroom _ (hstuck.limit.symm.trans hstuck.full)) (Nat.not_lt.mpr hle)

/-- **A stream leaves in its sink what the editor gives out**, within the limit of the sink. -/
theorem editStream_kept (rules : RuleSet) (options : StreamOptions) (source : τ) (sink : ω)
    {editor : Editor} (hd : Editor.withLimit options.maxDepth = .ok editor) :
    Kept options source sink
      (editor.run rules "" #[] (streamEvents source options.maxInputBytes))
      (editStream rules options source sink) := by
  obtain ⟨source', hl, hb, hread, hrun⟩ := editStream_eq rules options source sink hd
  have hnew : Carries (limit sink) (taken sink)
      (Writer.mk (Buffered.new sink) options.flushEach) "" := by
    have h := Buffered.intact_new sink
    rwa [← List.append_nil (taken sink)] at h
  rw [hrun]
  rcases Editor.run_follows rules (follows_text (limit sink) (taken sink))
    (streamEvents source options.maxInputBytes) editor #[] hnew with halike | hshort
  · exact kept_of_alike hl hb hread halike
  · exact kept_of_stopsShort hshort

end Kept

/-- **A stream to a sink that takes everything**: it makes the calls of a run with a text, leaves
that text in the sink, and succeeds if that run does; it fails with the same error unless the input
was too long. -/
theorem editStream_unlimited [ByteSource τ] (rules : RuleSet) (options : StreamOptions)
    (source : τ) {editor : Editor} (hd : Editor.withLimit options.maxDepth = .ok editor) :
    let r := editor.run rules "" #[] (streamEvents source options.maxInputBytes)
    let run := editStream rules options source Bounded.unlimited
    run.calls = r.calls ∧ run.sink.taken.toList = utf8 r.sink ∧
      (r.error? = none → run.result =
        .ok ⟨r.editor.stats, (Counted.new source options.maxInputBytes).drain.1.length⟩) ∧
      ∀ e, r.error? = some e → run.result = .error e ∨
        ∃ limit, options.maxInputBytes = some limit ∧ limit < (ByteSource.pending source).length ∧
          run.result = .error (.limit (.inputTooLong limit)) := by
  intro r run
  have hkept : Kept options source Bounded.unlimited r run :=
    editStream_kept rules options source Bounded.unlimited hd
  obtain ⟨hcalls, hok, herror⟩ := hkept.roomy (by rintro n ⟨⟩)
  exact ⟨hcalls, hkept.written, hok, herror⟩

/-! ## Streams of the same bytes -/

section Streams

variable {τ τ' ω ω' : Type} [ByteSource τ] [ByteSource τ'] [Keeper ω] [Keeper ω'] {source : τ}
  {source' : τ'} {sink : ω} {sink' : ω'}

theorem editStream_bytes (rules : RuleSet) {depth : Nat} (flush : Bool)
    (hd : Editor.withLimit depth = .ok (.new depth)) (hr : ByteSource.Reliable source)
    (hn : taken sink = []) (hl : limit sink = none) :
    let bytes := ByteSource.pending source
    let r := (Editor.new depth).run rules "" #[]
      (told ((Scanner.new none).remaining .complete bytes))
    let run := editStream rules ⟨depth, none, flush⟩ source sink
    run.calls = r.calls ∧ taken run.sink = utf8 r.sink ∧
      run.result = match r.error? with
        | some e => .error e
        | none => .ok ⟨r.editor.stats, bytes.length⟩ := by
  intro bytes r run
  have hkept := editStream_kept rules ⟨depth, none, flush⟩ source sink hd
  have hevents : streamEvents source none = _ := streamEvents_eq hr none
  have hcount : (Counted.new source none).drain.1 = bytes := (Counted.drain_new hr none).1
  rw [hevents] at hkept
  obtain ⟨hcalls, hok, herror⟩ := hkept.roomy (by simp [hl])
  have hwritten := hkept.written
  rw [hn, hl, List.nil_append] at hwritten
  refine ⟨hcalls, hwritten, ?_⟩
  rcases he : r.error? with _ | e
  · rw [hok he, hcount]
    rfl
  · rcases herror e he with h | ⟨limit, hlimit, -⟩
    · exact h
    · cases hlimit

/-- **Of a source only its bytes count**, and neither the pieces that they are read and written in
nor when they are passed on. -/
theorem editStream_same_bytes (rules : RuleSet) (depth : Nat) (flush flush' : Bool)
    (hr : ByteSource.Reliable source) (hr' : ByteSource.Reliable source')
    (hp : ByteSource.pending source = ByteSource.pending source')
    (hn : taken sink = []) (hl : limit sink = none) (hn' : taken sink' = [])
    (hl' : limit sink' = none) :
    let run := editStream rules ⟨depth, none, flush⟩ source sink
    let other := editStream rules ⟨depth, none, flush'⟩ source' sink'
    run.result = other.result ∧ run.calls = other.calls ∧ taken run.sink = taken other.sink := by
  intro run other
  rcases withLimit_cases depth with ⟨fault, hd⟩ | hd
  · rw [show run = _ from editStream_refused hd, show other = _ from editStream_refused hd]
    exact ⟨rfl, rfl, hn.trans hn'.symm⟩
  · obtain ⟨hcalls, hwritten, hresult⟩ := editStream_bytes rules flush hd hr hn hl
    obtain ⟨hcalls', hwritten', hresult'⟩ := editStream_bytes rules flush' hd hr' hn' hl'
    rw [← hp] at hcalls' hwritten' hresult'
    exact ⟨hresult.trans hresult'.symm, hcalls.trans hcalls'.symm, hwritten.trans hwritten'.symm⟩

theorem editStream_empty (rules : RuleSet) (depth : Nat) (flush : Bool)
    (hr : ByteSource.Reliable source) (hp : ByteSource.pending source = []) (hn : taken sink = [])
    (hl : limit sink = none) :
    let run := editStream rules ⟨depth, none, flush⟩ source sink
    (∃ e, run.result = .error e) ∧ taken run.sink = [] := by
  intro run
  rcases withLimit_cases depth with ⟨fault, hd⟩ | hd
  · rw [show run = _ from editStream_refused hd]
    exact ⟨⟨_, rfl⟩, hn⟩
  · obtain ⟨-, hwritten, hresult⟩ := editStream_bytes rules flush hd hr hn hl
    rw [hp] at hwritten hresult
    exact ⟨⟨_, hresult⟩, hwritten⟩

end Streams

/-! ## Events that break off -/

section Events

variable {τ' : Type} [ByteSource τ] [ByteSource τ'] {rules : RuleSet} {options : StreamOptions}
  {source : τ} {source' : τ'} {sink : ω}

/-- **A stream whose events break off early** does the first part of what the other does. -/
theorem editStream_shorter (h : EndsEarly (streamEvents source options.maxInputBytes)
      (streamEvents source' options.maxInputBytes)) (sink : ω) :
    let short := editStream rules options source sink
    let long := editStream rules options source' sink
    taken short.sink <+: taken long.sink ∧ short.calls.toList <+: long.calls.toList := by
  intro short long
  rcases withLimit_cases options.maxDepth with ⟨fault, hd⟩ | hd
  · rw [show short = _ from editStream_refused hd, show long = _ from editStream_refused hd]
    exact ⟨List.prefix_rfl, List.prefix_rfl⟩
  constructor
  · obtain ⟨more, ht⟩ := (Editor.run_endsEarly h rules (.new options.maxDepth) "" #[]).text
    rw [(editStream_kept rules options source sink hd).written,
      (editStream_kept rules options source' sink hd).written, ht, utf8_append,
      ← List.append_assoc]
    exact Counted.within_mono _ (List.prefix_append _ _)
  · obtain ⟨_, -, -, -, hshort⟩ := editStream_eq rules options source sink hd
    obtain ⟨_, -, -, -, hlong⟩ := editStream_eq rules options source' sink hd
    rw [show short = _ from hshort, show long = _ from hlong]
    exact Editor.run_calls_endsEarly h rules _ _ #[]

theorem faultless_of_accepted {summary : Summary}
    (h : (editStream rules options source sink).result = .ok summary) :
    Faultless (streamEvents source options.maxInputBytes) := by
  rcases withLimit_cases options.maxDepth with ⟨fault, hd⟩ | hd
  · rw [editStream_refused hd] at h
    cases h
  have hr := ((editStream_kept rules options source sink hd).complete summary h).1
  have ha : Editor.Accepts rules (.new options.maxDepth) "" _ := (Reply.of_error? hr).1
  exact ha.faultless

end Events

end JsonEdit
