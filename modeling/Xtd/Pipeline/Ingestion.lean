import Xtd.Concurrency.Client
import Xtd.Pipeline.FixedPool
import Xtd.Pipeline.Stream

/-!
# Ingestion

`pipe_utils.h`: a thread that copies a file or what arrives at a socket into the pipeline, chunk by chunk, and completes
the writer.  The worker is a client of the pipeline; both workers write what a turn of their loop has read and go on,
until a turn leaves the loop.  `write` throws when the reader is completed, and nothing in the worker catches that.
-/

namespace Xtd

open Concurrency

/-! ### The workers -/

/-- A `chunkSize` that was accepted. -/
structure ChunkSize where
  size : Nat
  size_pos : 0 < size
  size_lt : size < SizeT.modulus

def checkChunkSize (chunkSize : UInt64) : Except Exn ChunkSize :=
  if h : chunkSize.toNat = 0 then .error (.invalidArgument "chunk size must be greater than zero")
  else .ok ⟨chunkSize.toNat, Nat.pos_of_ne_zero h, chunkSize.toNat_lt⟩

/-- `threaded_copy_file_from_path` up to the start of its thread; `probe` tells whether the file could be opened. -/
def threadedCopyFileFromPath (probe : Bool) (chunkSize : UInt64) : Except Exn ChunkSize := do
  let chunkSize ← checkChunkSize chunkSize
  if probe then .ok chunkSize else .error (.iosFailure "failed to open file")

/-- `threaded_copy_from_socket` up to the start of its thread. -/
def threadedCopyFromSocket (socketFd : Int) (chunkSize : UInt64) : Except Exn ChunkSize :=
  if socketFd < 0 then .error (.invalidArgument "socketFd must be a valid descriptor") else checkChunkSize chunkSize

/-- A worker may run with any chunk size: both functions accept it, given a file that can be opened or a descriptor. -/
theorem ChunkSize.exists_accepted (c : ChunkSize) :
    ∃ chunkSize, threadedCopyFileFromPath true chunkSize = .ok c ∧
      ∀ socketFd, 0 ≤ socketFd → threadedCopyFromSocket socketFd chunkSize = .ok c := by
  have hsize : (UInt64.ofNat c.size).toNat = c.size := UInt64.toNat_ofNat_of_lt' c.size_lt
  have hcheck : checkChunkSize (.ofNat c.size) = .ok c := by
    unfold checkChunkSize
    rw [dif_neg (by rw [hsize]; exact Nat.ne_of_gt c.size_pos)]
    simp only [hsize]
  refine ⟨.ofNat c.size, ?_, ?_⟩
  · unfold threadedCopyFileFromPath
    rw [hcheck]
    rfl
  · intro socketFd hfd
    unfold threadedCopyFromSocket
    rw [if_neg (Int.not_lt.2 hfd), hcheck]

/-- What a turn of the loop of a worker comes to: it is still at its input, it writes and goes on with the rest of the
input, or it leaves the loop. -/
inductive Turn (ι : Type)
  | waits
  | writes (data : Span) (rest : ι)
  | leaves

/-- What `recv` returns; `EINTR` is told from the other errors. -/
inductive RecvResult (chunkSize : ChunkSize)
  | received (data : Span) (data_ne : data.bytes ≠ []) (size_le : data.bytes.length ≤ chunkSize.size)
  | endOfStream
  | interrupted
  | failed

variable {chunkSize : ChunkSize}

/-- The loop of the worker of `threaded_copy_from_socket`, given what `recv` is going to return. -/
def socketTurn : List (RecvResult chunkSize) → Turn (List (RecvResult chunkSize))
  | [] => .waits
  | .received data _ _ :: rest => .writes data rest
  | .endOfStream :: _ => .leaves
  | .interrupted :: rest => socketTurn rest
  | .failed :: _ => .leaves

/-- The bytes received before the end of the stream or an error. -/
def socketBytes : List (RecvResult chunkSize) → List Byte
  | [] => []
  | .received data _ _ :: rest => data.bytes ++ socketBytes rest
  | .endOfStream :: _ => []
  | .interrupted :: rest => socketBytes rest
  | .failed :: _ => []

/-- The `ifstream` of the worker: what can still be read from it, and `eof() || fail()`. -/
structure FileInput where
  content : List Byte
  ended : Bool

/-- The loop of the worker of `threaded_copy_file_from_path`. -/
def fileTurn (chunkSize : ChunkSize) (f : FileInput) : Turn FileInput :=
  if f.ended then .leaves
  else
    let data := f.content.take chunkSize.size
    let rest : FileInput := ⟨f.content.drop chunkSize.size, decide (data.length < chunkSize.size)⟩
    -- if nothing was read, the end of the file was met, since chunks are not empty
    if data = [] then .leaves
    else .writes ⟨data, Nat.lt_of_le_of_lt (List.length_take_le _ _) chunkSize.size_lt⟩ rest

def fileBytes (f : FileInput) : List Byte := if f.ended then [] else f.content

/-- Where a worker is: in its loop, behind `writer.complete()`, or left by an exception. -/
inductive CopyStage (ι : Type)
  | looping (input : ι)
  | finished
  | threw (e : Exn)

namespace CopyStage

variable {ι : Type}

def call (turn : ι → Turn ι) : CopyStage ι → Option PipeOp
  | looping input =>
    match turn input with
    | .waits => none
    | .writes data _ => some (.write data none)
    | .leaves => some .completeWriter
  | finished | threw _ => none

def see (turn : ι → Turn ι) (g : CopyStage ι) (e : PipeEvent) : CopyStage ι :=
  match g, e with
  | looping input, .writeReturn _ _ _ =>
    match turn input with
    | .writes _ rest => looping rest
    | _ => looping input
  | looping _, .writeThrow _ e => threw e
  | looping _, .writerCompleted => finished
  | g, _ => g

end CopyStage

/-- The worker whose loop takes the given turns. -/
def copyWorker {ι : Type} (turn : ι → Turn ι) : Client (CopyStage ι) PipeOp PipeEvent :=
  ⟨CopyStage.call turn, CopyStage.see turn⟩

/-- The worker of `threaded_copy_from_socket` at its loop, unless the construction of its buffer throws. -/
def socketWorker (buffer : Except Exn Unit) (recvs : List (RecvResult chunkSize)) :
    CopyStage (List (RecvResult chunkSize)) :=
  match buffer with
  | .error e => .threw e
  | .ok () => .looping recvs

/-- The worker of `threaded_copy_file_from_path`: it completes the writer if the file cannot be opened again, and is at
its loop unless the construction of its buffer throws. -/
def fileWorker (buffer : Except Exn Unit) : Option (List Byte) → CopyStage FileInput
  | none => .looping ⟨[], true⟩
  | some content =>
    match buffer with
    | .error e => .threw e
    | .ok () => .looping ⟨content, false⟩

/-! ### What is copied -/

/-- The bytes of an input are those that its turns write. -/
structure Copies {ι : Type} (turn : ι → Turn ι) (bytes : ι → List Byte) : Prop where
  writes : ∀ {input data rest}, turn input = .writes data rest → data.bytes ≠ [] ∧ bytes input = data.bytes ++ bytes rest
  leaves : ∀ {input}, turn input = .leaves → bytes input = []

theorem socket_copies : Copies (@socketTurn chunkSize) socketBytes := by
  constructor
  · intro input data rest h
    induction input with
    | nil => cases h
    | cons r input ih =>
      cases r with
      | received data data_ne size_le =>
        cases h
        exact ⟨data_ne, rfl⟩
      | interrupted => exact ih h
      | endOfStream => cases h
      | failed => cases h
  · intro input h
    induction input with
    | nil => rfl
    | cons r input ih =>
      cases r with
      | received => cases h
      | interrupted => exact ih h
      | endOfStream => rfl
      | failed => rfl

theorem file_copies (chunkSize : ChunkSize) : Copies (fileTurn chunkSize) fileBytes := by
  have hpos := chunkSize.size_pos
  constructor
  · intro input data rest h
    unfold fileTurn at h
    dsimp only at h
    split_ifs at h with hended hdata
    cases h
    refine ⟨hdata, ?_⟩
    simp only [fileBytes, hended, Bool.false_eq_true, if_false, decide_eq_true_eq]
    split_ifs with hlt
    · -- the chunk was not filled: it was the last one
      rw [List.length_take] at hlt
      rw [List.append_nil, List.take_of_length_le (by omega)]
    · rw [List.take_append_drop]
  · intro input h
    unfold fileTurn at h
    dsimp only at h
    split_ifs at h with hended hdata
    · rw [fileBytes, if_pos hended]
    · have hnil : input.content = [] := by
        rcases List.take_eq_nil_iff.1 hdata with h | h
        · omega
        · exact h
      simp [fileBytes, hnil]

/-- The bytes committed to the pipeline, in the order in which they were. -/
def PipeEvent.commitBytes : PipeEvent → List Byte
  | commit _ bytes => bytes
  | _ => []

def ingested (tr : List PipeEvent) : List Byte := tr.flatMap PipeEvent.commitBytes

theorem ingested_append (tr tr' : List PipeEvent) : ingested (tr ++ tr') = ingested tr ++ ingested tr' := by
  simp [ingested]

/-! ### The worker in a run -/

variable {ρ π τ ι : Type} {p q : Pipe ρ π} {turn : ι → Turn ι} {bytes : ι → List Byte} {total : List Byte}
  {tr evs : List PipeEvent} {g : CopyStage ι} {l? : Option PipeLocal}

/-- Where the worker is, the place of its call, and how much of `total` it has committed. -/
inductive Copying (turn : ι → Turn ι) (bytes : ι → List Byte) (total : List Byte) (tr : List PipeEvent)
    (p : Pipe ρ π) : CopyStage ι → Option PipeLocal → Prop
  | looping (input : ι) (hw : p.writerCompleted = false) (hbytes : ingested tr ++ bytes input = total) :
      Copying turn bytes total tr p (.looping input) none
  | writing (input rest : ι) (chunk : Span) (l : PipeLocal) (call copied : Nat) (data : List Byte)
      (hturn : turn input = .writes chunk rest) (hl : l.writing? = some (call, data, copied)) (htoken : l.token = none)
      (hw : p.writerCompleted = false) (hbytes : ingested tr ++ (data ++ bytes rest) = total) :
      Copying turn bytes total tr p (.looping input) (some l)
  | completing (input : ι) (hw : p.writerCompleted = false) (hbytes : ingested tr = total) :
      Copying turn bytes total tr p (.looping input) (some .completeWriter)
  | finished (hw : p.writerCompleted = true) (hbytes : ingested tr = total) : Copying turn bytes total tr p .finished none
  | threw (e : Exn) (hbytes : ingested tr <+: total) : Copying turn bytes total tr p (.threw e) none

/-- What others do does not disturb the worker. -/
theorem Copying.other (h : Copying turn bytes total tr p g l?) (hw : q.writerCompleted = p.writerCompleted)
    (hevs : ingested evs = []) : Copying turn bytes total (tr ++ evs) q g l? := by
  have hsame : ingested (tr ++ evs) = ingested tr := by rw [ingested_append, hevs, List.append_nil]
  cases h with
  | looping input hp hbytes => exact .looping input (hw.trans hp) (by rw [hsame]; exact hbytes)
  | writing input rest chunk l call copied data hturn hl htoken hp hbytes =>
    exact .writing input rest chunk l call copied data hturn hl htoken (hw.trans hp) (by rw [hsame]; exact hbytes)
  | completing input hp hbytes => exact .completing input (hw.trans hp) (hsame.trans hbytes)
  | finished hp hbytes => exact .finished (hw.trans hp) (hsame.trans hbytes)
  | threw e hbytes => exact .threw e (by rw [hsame]; exact hbytes)

/-- What the worker makes of the events of a piece. -/
def CopyStage.after (turn : ι → Turn ι) (g : CopyStage ι) (r : PipePiece ρ π) : CopyStage ι :=
  (r.events ++ r.next.doneEvents).foldl (CopyStage.see turn) g

/-- The worker after the piece `r` of its call; it throws only if `failed`. -/
structure CopyingAfter (turn : ι → Turn ι) (bytes : ι → List Byte) (total : List Byte) (tr : List PipeEvent)
    (g : CopyStage ι) (r : PipePiece ρ π) (failed : Prop) : Prop where
  copying : Copying turn bytes total (tr ++ r.events) r.shared (g.after turn r) r.next.local?
  throws : ∀ e, g.after turn r = .threw e → failed

private theorem ingested_nil : ingested (tr ++ []) = ingested tr := by rw [List.append_nil]

/-- `write` unlocks: it returns if there are no data left, and goes on at its top otherwise. -/
private theorem copying_writeUnlock {input rest : ι} {chunk : Span} {call copied : Nat} {data : List Byte} {notify : Bool}
    (hturn : turn input = .writes chunk rest) (hw : p.writerCompleted = false)
    (hbytes : ingested tr ++ (data ++ bytes rest) = total) (failed : Prop) :
    CopyingAfter turn bytes total tr (.looping input) (p.writeUnlock call data copied notify none false) failed := by
  rcases writeUnlock_cases p call data copied notify none false with ⟨rfl, he⟩ | ⟨-, he⟩ <;> rw [he]
  · have hafter : CopyStage.after turn (.looping input) (⟨p, [], .release (if notify then [.one .dataAvailable] else [])
        (.done [.writeReturn call copied false])⟩ : PipePiece ρ π) = .looping rest := by
      show (match turn input with | .writes _ rest => _ | _ => _) = _
      rw [hturn]
    refine ⟨?_, ?_⟩
    · rw [hafter]
      exact .looping rest hw (by rw [ingested_nil]; exact hbytes)
    · rw [hafter]
      exact nofun
  · exact ⟨.writing input rest chunk _ call copied data hturn rfl rfl hw (by rw [ingested_nil]; exact hbytes), nofun⟩

/-- An exception of `write`: the worker is left by it. -/
private theorem copying_throw {input : ι} {call : Nat} {e : Exn} {failed : Prop} (hbytes : ingested tr <+: total)
    (hfailed : failed) :
    CopyingAfter turn bytes total tr (.looping input) (⟨p, [], .release [] (.done [.writeThrow call e])⟩ : PipePiece ρ π)
      failed :=
  ⟨.threw e (by rw [ingested_nil]; exact hbytes), fun _ _ => hfailed⟩

private theorem getSegment_of_copyChunk [MemoryResource ρ π] {o : ValidatedOptions} {data : List Byte} {capacity : Nat}
    {oom : Bool} (h : p.copyChunk o data capacity oom = none) : p.getSegment o oom = none := by
  unfold Pipe.copyChunk at h
  dsimp only at h
  split at h
  · assumption
  · cases h

/-- A worker whose write under way has `data` left has committed a beginning of its input. -/
private theorem prefix_of_bytes {data rest : List Byte} (h : ingested tr ++ (data ++ rest) = total) :
    ingested tr <+: total := ⟨_, h⟩

/-- Every piece of a call of the worker.  It throws only if the reader is completed or there is no segment to be had. -/
theorem copying_piece [MemoryResource ρ π] {o : ValidatedOptions} {l : PipeLocal}
    (h : Copying turn bytes total tr p g (some l)) (oom : Bool) :
    CopyingAfter turn bytes total tr g ((pipeline ρ o).exec l p false oom)
      (l.writing?.isSome = true ∧ (p.readerCompleted = true ∨ p.getSegment o oom = none)) := by
  have hm := pipe_moves o l p false oom
  generalize (pipeline ρ o).exec l p false oom = r at hm ⊢
  cases h with
  | completing input hw hbytes =>
    cases hm
    refine ⟨.finished rfl ?_, nofun⟩
    rw [ingested_append, hbytes]
    exact List.append_nil _
  | writing input rest chunk _ call copied data hturn hl htoken hw hbytes =>
    have hany : p.isAnyCompleted = true → p.readerCompleted = true := by simp [Pipe.isAnyCompleted, hw]
    cases hm with
    | topThrow hc =>
      exact copying_throw (prefix_of_bytes hbytes) ⟨rfl, .inl (hany hc)⟩
    | topWait hc =>
      cases hl
      exact ⟨.writing input rest chunk _ _ _ _ hturn rfl htoken hw (by rw [ingested_nil]; exact hbytes), nofun⟩
    | leave hd =>
      cases hl
      cases htoken
      exact copying_writeUnlock hturn hw hbytes _
    | loopThrow hd hp hc => exact copying_throw (prefix_of_bytes hbytes) ⟨rfl, .inl (hany hc)⟩
    | pause hd hp hc ha =>
      cases hl
      cases htoken
      exact copying_writeUnlock (p := { p with writerPaused := true }) hturn hw hbytes _
    | loopOom hd hp hc ha hq =>
      exact copying_throw (prefix_of_bytes hbytes) ⟨rfl, .inr (getSegment_of_copyChunk hq)⟩
    | chunk q n hd hp hc ha hq =>
      cases hl
      obtain ⟨r, segs, b, a, rfl⟩ := copyChunk_frame hq
      refine ⟨.writing input rest chunk _ _ _ _ hturn rfl htoken hw ?_, nofun⟩
      have hchunk : ingested [.commit call (data.take n)] = data.take n := List.append_nil _
      rw [ingested_append, hchunk, List.append_assoc, ← List.append_assoc (data.take n), List.take_append_drop]
      exact hbytes
    | readThrow => cases hl
    | readWait => cases hl
    | readNow => cases hl
    | readAfter => cases hl
    | advanceThrow => cases hl
    | advanceFault => cases hl
    | advance => cases hl
    | completeWriter => cases hl
    | completeReader => cases hl

/-- The worker calls what its turn says. -/
theorem Copying.call (hcopies : Copies turn bytes) (h : Copying turn bytes total tr p g none) {op : PipeOp}
    (hcall : g.call turn = some op) (n : Nat) :
    ingested (op.enter n).1 = [] ∧ (op.enter n).1.foldl (CopyStage.see turn) g = g ∧
      Copying turn bytes total tr p g (op.enter n).2 := by
  cases h with
  | looping input hw hbytes =>
    unfold CopyStage.call at hcall
    dsimp only at hcall
    split at hcall
    · cases hcall
    · rename_i data rest hturn
      cases hcall
      obtain ⟨hne, hinput⟩ := hcopies.writes hturn
      have henter : (PipeOp.write data none).enter n =
          ([.writeCall n data.bytes], some (.writeTop n data.bytes 0 none)) := by
        simp [PipeOp.enter, hne]
      rw [henter]
      exact ⟨rfl, rfl, .writing input rest data _ n 0 data.bytes hturn rfl rfl hw (by rw [← hinput]; exact hbytes)⟩
    · rename_i hturn
      cases hcall
      refine ⟨rfl, rfl, .completing input hw ?_⟩
      rw [hcopies.leaves hturn, List.append_nil] at hbytes
      exact hbytes
  | finished => cases hcall
  | threw => cases hcall

/-- A call of the worker uses no stop token. -/
theorem Copying.token {l : PipeLocal} (h : Copying turn bytes total tr p g (some l)) : l.token = none := by
  cases h with
  | writing _ _ _ _ _ _ _ _ _ htoken => exact htoken
  | completing => rfl

/-- A piece of the read endpoint commits nothing and does not complete the writer. -/
theorem reader_piece [MemoryResource ρ π] {o : ValidatedOptions} {l : PipeLocal} (hl : l.isWriter = false)
    (stop oom : Bool) :
    ((pipeline ρ o).exec l p stop oom).shared.writerCompleted = p.writerCompleted ∧
      ingested ((pipeline ρ o).exec l p stop oom).events = [] := by
  have hm := pipe_moves o l p stop oom
  generalize (pipeline ρ o).exec l p stop oom = r at hm ⊢
  have tail : ∀ q : Pipe ρ π, (q.readTail stop).shared.writerCompleted = q.writerCompleted ∧
      ingested (q.readTail stop).events = [] := by
    intro q
    rcases readTail_cases q stop with ⟨-, he⟩ | ⟨-, he⟩ <;> rw [he] <;> exact ⟨rfl, rfl⟩
  cases hm with
  | readNow => exact tail p
  | readAfter => exact tail { p with readerWaiting := false }
  | readThrow => exact ⟨rfl, rfl⟩
  | readWait => exact ⟨rfl, rfl⟩
  | advanceThrow => exact ⟨rfl, rfl⟩
  | advanceFault => exact ⟨rfl, rfl⟩
  | advance q paused hr hp he hx hq hpa =>
    subst hq
    exact ⟨rfl, rfl⟩
  | completeReader => exact ⟨rfl, rfl⟩
  | _ => cases hl

theorem ingested_of_isEnd {tr : List PipeEvent} (h : ∀ e ∈ tr, e.isEnd = true) : ingested tr = [] := by
  refine List.flatMap_eq_nil_iff.2 ?_
  intro e he
  cases e with
  | commit call bytes => cases h _ he
  | _ => rfl

/-! ### Runs -/

/-- The thread `w` runs the worker, and the others use the read endpoint. -/
def CopyRun (turn : ι → Turn ι) (w : τ) (x : CopyStage ι × PipeState τ ρ π) (a : PipeAction τ) : Prop :=
  (copyWorker turn).Follows w x a ∧ ∀ t op, a = .call t op → t ≠ w → op.isWriter = false

/-- When a piece of a write of `w` is executed, the reader is not completed and there is a segment to be had. -/
def Undisturbed [MemoryResource ρ π] (o : ValidatedOptions) (w : τ) (s : PipeState τ ρ π) (a : PipeAction τ) : Prop :=
  ∀ oom l, a = .run w oom → s.phase w = .locked l → l.writing?.isSome = true →
    s.shared.readerCompleted = false ∧ (s.shared.getSegment o oom).isSome = true

section Runs

variable [MemoryResource ρ π] [DecidableEq τ] [Fintype τ] {o : ValidatedOptions} {w : τ} {m : ρ} {g₀ : CopyStage ι}
  {x x' : CopyStage ι × PipeState τ ρ π} {a : PipeAction τ}

/-- All but the worker read. -/
theorem copy_locals
    (h : ((copyWorker turn).machine (pipeline ρ o) w).Exec (CopyRun turn w) (g₀, State.init (Pipe.new m)) tr x)
    {t : τ} {l : PipeLocal} (ht : t ≠ w) (hl : (x.2.phase t).local? = some l) : l.isWriter = false := by
  have h' := Client.exec_monitor (fun _ a => ∀ t op, a = .call t op → t ≠ w → op.isWriter = false) h
    (fun _ _ hok => hok.2)
  refine (Monitor.thread_invariant (P := fun _ => True) (A := fun t l _ => t ≠ w → l.isWriter = false) h' trivial
    ?_ ?_).2 t l hl ht
  · intro s t op l hok _ he ht
    exact (endpoint_enter he).2.trans (hok t op rfl ht)
  · intro t l p stop oom _ hl
    exact ⟨trivial, fun l' hn ht => (endpoint_next hn).2.trans (hl ht), fun _ _ _ h => h⟩

/-- A step that executes no piece of the worker commits nothing and does not complete the writer. -/
private theorem copy_other
    (h : ((copyWorker turn).machine (pipeline ρ o) w).Exec (CopyRun turn w) (g₀, State.init (Pipe.new m)) tr x)
    (hm : (pipeline ρ o).Moves x.2 a x'.2 evs)
    (hrun : ∀ z l, a = .run w z → x.2.phase w ≠ .locked l) :
    x'.2.shared.writerCompleted = x.2.shared.writerCompleted ∧ ingested evs = [] := by
  have hmon := Client.exec_monitor Machine.Any h (fun _ _ _ => trivial)
  rcases hm.events_eq with ⟨t, op, rfl, -, rfl, -⟩ | ⟨t, z, l, evs', rfl, hl, rfl, hd, -⟩ | ⟨-, hidle, hd, -⟩
  · refine ⟨by rw [hm.of_call.1], ?_⟩
    refine List.flatMap_eq_nil_iff.2 ?_
    intro e he
    rcases enter_events he with ⟨_, rfl⟩ | ⟨_, _, rfl⟩ | ⟨_, rfl⟩ <;> rfl
  · have ht : t ≠ w := by
      rintro rfl
      exact hrun z l rfl hl
    obtain ⟨hw, hevs⟩ := reader_piece (o := o) (p := x.2.shared) (copy_locals h ht (Monitor.local?_of_locked hl))
      (x.2.stop l.token) z
    refine ⟨by rw [(hm.of_piece hl).1]; exact hw, ?_⟩
    rw [ingested_append, ingested_of_isEnd fun e he => doneEvents_isEnd o _ _ _ _ e (hd e he), List.append_nil]
    exact hevs
  · constructor
    · rcases hm.shared_eq with ⟨he, -⟩ | ⟨t, z, l, ha, hl, -⟩
      · rw [he]
      · exact absurd hl (hidle t z l ha)
    · refine ingested_of_isEnd ?_
      intro e he
      obtain ⟨t, ht⟩ := hd e he
      exact Monitor.doneEvents_of_exec hmon (fun l y stop z _ _ _ _ => doneEvents_isEnd o l y stop z) t _ ht

/-- What a step does to the worker: nothing is lost, and it throws only in a piece of a write that finds the reader
completed or no segment. -/
private theorem copying_step (hcopies : Copies turn bytes)
    (h : ((copyWorker turn).machine (pipeline ρ o) w).Exec (CopyRun turn w) (g₀, State.init (Pipe.new m)) tr x)
    (hC : Copying turn bytes total tr x.2.shared ((copyWorker turn).ahead w x) (x.2.phase w).local?)
    (hok : CopyRun turn w x a) (hs : ((copyWorker turn).machine (pipeline ρ o) w).step x a = some (x', evs)) :
    Copying turn bytes total (tr ++ evs) x'.2.shared ((copyWorker turn).ahead w x') (x'.2.phase w).local? ∧
      ∀ e, (copyWorker turn).ahead w x' = .threw e →
        (copyWorker turn).ahead w x = .threw e ∨ ¬ Undisturbed o w x.2 a := by
  obtain ⟨hm, -⟩ := Client.moves_of_step hs
  rcases Client.ahead_eq hs with ⟨op, rfl, hout, hg, hnext⟩ | ⟨z, l, rfl, hl, hnext⟩ | ⟨hcall, hrun, hnext⟩
  · obtain ⟨hsh, hown, -⟩ := hm.of_call
    obtain ⟨hw, hevs⟩ := copy_other h hm nofun
    rw [hout] at hC
    obtain ⟨-, hsee, hC'⟩ := Copying.call hcopies hC (hg ▸ hok.1 op rfl) x.2.calls
    have hsame : (copyWorker turn).ahead w x' = (copyWorker turn).ahead w x := hnext.trans hsee
    rw [hsame, hown]
    exact ⟨hC'.other hw hevs, fun e he => .inl he⟩
  · obtain ⟨hsh, hown, -⟩ := hm.of_piece hl
    obtain ⟨evs', rfl, hd⟩ := hm.events_of_piece hl
    rw [hl] at hC
    have hpiece : (pipeline ρ o).piece x.2 l z = (pipeline ρ o).exec l x.2.shared false z := by
      show (pipeline ρ o).exec l x.2.shared (x.2.stop l.token) z = _
      rw [hC.token]
      rfl
    have hP := copying_piece (o := o) hC z
    rw [← hpiece] at hP
    have hend : ingested evs' = [] := ingested_of_isEnd fun e he => doneEvents_isEnd o _ _ _ _ e (hd e he)
    rw [hown, hsh, ← List.append_assoc]
    refine ⟨?_, ?_⟩
    · rw [show (copyWorker turn).ahead w x' = _ from hnext]
      exact hP.copying.other rfl hend
    · intro e he
      obtain ⟨hwriting, hfail⟩ := hP.throws e (hnext.symm.trans he)
      refine .inr fun hU => ?_
      obtain ⟨hr, hseg⟩ := hU z l rfl hl hwriting
      rcases hfail with hfail | hfail
      · rw [hr] at hfail
        cases hfail
      · rw [hfail] at hseg
        cases hseg
  · obtain ⟨hw, hevs⟩ := copy_other h hm hrun
    rw [hnext, hm.local?_of_idle hcall hrun]
    exact ⟨hC.other hw hevs, fun e he => .inl he⟩

/-- In every run the worker has committed a beginning of its input, in order. -/
theorem copying_of_exec (hcopies : Copies turn bytes)
    (h : ((copyWorker turn).machine (pipeline ρ o) w).Exec (CopyRun turn w) (g₀, State.init (Pipe.new m)) tr x)
    (h0 : Copying turn bytes total [] (Pipe.new m : Pipe ρ π) g₀ none) :
    Copying turn bytes total tr x.2.shared ((copyWorker turn).ahead w x) (x.2.phase w).local? := by
  induction h with
  | nil => exact h0
  | snoc h hok hs ih => exact (copying_step hcopies h ih hok hs).1

/-- In an undisturbed run the worker is not left by an exception. -/
theorem not_threw_of_exec (hcopies : Copies turn bytes)
    (h : ((copyWorker turn).machine (pipeline ρ o) w).Exec (fun x a => CopyRun turn w x a ∧ Undisturbed o w x.2 a)
      (g₀, State.init (Pipe.new m)) tr x)
    (h0 : Copying turn bytes total [] (Pipe.new m : Pipe ρ π) g₀ none) (hg : ∀ e, g₀ ≠ .threw e) (e : Exn) :
    (copyWorker turn).ahead w x ≠ .threw e := by
  induction h with
  | nil => exact hg e
  | snoc h hok hs ih =>
    have hrun := h.mono (fun _ _ hok => hok.1)
    intro he
    rcases (copying_step hcopies hrun (copying_of_exec hcopies hrun h0) hok.1 hs).2 e he with he | hU
    · exact ih he
    · exact hU hok.2

end Runs

end Xtd
