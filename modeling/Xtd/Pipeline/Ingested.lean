import Xtd.Pipeline.Backlog
import Xtd.Pipeline.Cancellation
import Xtd.Pipeline.Ingestion
import Xtd.Pipeline.WakeUp

/-!
# The end of an ingestion

A worker of `pipe_utils.h` is meant to end by completing the writer.  An exception of `write` that nobody catches keeps it
from that, and so does a pause that no reader can end.  Without the two it comes to rest only at its end, at its input, or
in a `write` that is paused behind bytes that nobody has consumed.
-/

namespace Xtd

open Concurrency

variable {ρ π τ ι : Type} {turn : ι → Turn ι} {bytes : ι → List Byte} {total : List Byte} {tr : List PipeEvent}
  {p : Pipe ρ π} {g : CopyStage ι} {l? : Option PipeLocal}

/-! ### The end of the worker -/

/-- How a worker comes to rest: it has ended, it waits for its input, or its write is paused behind bytes that nobody has
consumed. -/
inductive Rests (turn : ι → Turn ι) (w : τ) (x : CopyStage ι × PipeState τ ρ π) : Prop
  | finished (hx : x.1 = .finished)
  | waiting (input : ι) (hx : x.1 = .looping input) (hturn : turn input = .waits)
  | paused (call copied : Nat) (data : List Byte)
      (hphase : x.2.phase w = .asleep .spaceAvailable (.writeLoop call data copied false none))
      (hpaused : x.2.shared.writerPaused = true) (hbytes : 0 < x.2.shared.bufferedSize)

/-- What an ingestion helper promises of its worker: no exception escapes, what is committed is a beginning of what was
received, and the worker ends by completing the writer, with everything committed.  If segments are not larger than the
resume threshold, nothing else keeps it from its end than the input and bytes that the reader has not consumed. -/
structure Ingested (o : ValidatedOptions) (turn : ι → Turn ι) (w : τ) (received : List Byte) (tr : List PipeEvent)
    (x : CopyStage ι × PipeState τ ρ π) : Prop where
  not_threw : ∀ e, x.1 ≠ .threw e
  in_order : ingested tr <+: received
  ends : x.1.call turn = none → x.1 = .finished ∨ ∃ input, x.1 = .looping input ∧ turn input = .waits
  completes : x.1 = .finished → x.2.shared.writerCompleted = true ∧ ingested tr = received
  rest : o.bufferSize ≤ o.resumeWriterThreshold → x.2.Quiescent →
    (x.2.phase w = .outside → x.1.call turn = none) → Rests turn w x

theorem Copying.in_order (h : Copying turn bytes total tr p g l?) : ingested tr <+: total := by
  cases h with
  | looping input _ hbytes => exact ⟨_, hbytes⟩
  | writing _ _ _ _ _ _ _ _ _ _ _ hbytes => exact ⟨_, hbytes⟩
  | completing _ _ hbytes => exact ⟨[], by rw [List.append_nil]; exact hbytes⟩
  | finished _ hbytes => exact ⟨[], by rw [List.append_nil]; exact hbytes⟩
  | threw _ hbytes => exact hbytes

/-- The worker does not go on from its end. -/
private theorem foldl_see_of_end (evs : List PipeEvent) (hg : g = .finished ∨ ∃ e, g = .threw e) :
    evs.foldl (CopyStage.see turn) g = g := by
  induction evs with
  | nil => rfl
  | cons e evs ih =>
    have hsee : CopyStage.see turn g e = g := by rcases hg with rfl | ⟨_, rfl⟩ <;> rfl
    rw [List.foldl_cons, hsee, ih]

section Runs

variable [MemoryResource ρ π] [DecidableEq τ] [Fintype τ] {o : ValidatedOptions} {w : τ} {m : ρ} {g₀ : CopyStage ι}
  {x : CopyStage ι × PipeState τ ρ π}

omit [MemoryResource ρ π] [DecidableEq τ] [Fintype τ] in
private theorem CopyRun.oneWriter {a : PipeAction τ} (h : CopyRun turn w x a) : OneWriter w x.2 a := by
  rintro t data token rfl
  by_contra ht
  have hreads : (PipeOp.write data token).isWriter = false := h.2 t _ rfl ht
  cases hreads

/-- A worker asleep is in the wait of a write, which is paused for want of room. -/
private theorem rests_of_asleep (hcopies : Copies turn bytes)
    (h : ((copyWorker turn).machine (pipeline ρ o) w).Exec (CopyRun turn w) (g₀, State.init (Pipe.new m)) tr x)
    (h0 : Copying turn bytes total [] (Pipe.new m : Pipe ρ π) g₀ none)
    (ho : o.bufferSize ≤ o.resumeWriterThreshold) (hq : x.2.Quiescent) {c : CondVar} {l : PipeLocal}
    (hasleep : x.2.phase w = .asleep c l) : Rests turn w x := by
  have hrun := Client.exec_monitor (OneWriter w) h fun _ _ hok => hok.oneWriter
  have hC := copying_of_exec hcopies h h0
  rw [Client.ahead_of_quiescent hq, hasleep] at hC
  generalize x.1 = g at hC
  rcases waits_of_exec hrun (t := w) (by rw [hasleep]; rfl) with
    ⟨-, minSize, token, rfl⟩ | ⟨rfl, call, data, copied, token, rfl⟩
  · -- the worker does not read
    cases hC with
    | writing _ _ _ _ _ _ _ _ hl => cases hl
  · have htoken : token = none := hC.token
    subst htoken
    have hpaused : x.2.shared.writerPaused = true := paused_of_asleep hrun hq hasleep
    have hopen := not_completed_of_paused hrun hpaused
    unfold Pipe.isAnyCompleted at hopen
    rw [Bool.or_eq_false_iff] at hopen
    have hB := backlog_of_exec ho (hrun.mono fun _ _ _ => trivial) hopen.2
    have hlt := hB.lt_buffered (Nat.le_trans ho o.resume_le) hpaused
    exact .paused call copied data hasleep hpaused (Nat.zero_lt_of_lt hlt)

theorem ingested_of_exec (hcopies : Copies turn bytes)
    (h : ((copyWorker turn).machine (pipeline ρ o) w).Exec (fun x a => CopyRun turn w x a ∧ Undisturbed o w x.2 a)
      (g₀, State.init (Pipe.new m)) tr x)
    (h0 : Copying turn bytes total [] (Pipe.new m : Pipe ρ π) g₀ none) (hg : ∀ e, g₀ ≠ .threw e) :
    Ingested o turn w total tr x := by
  have hrun := h.mono (fun _ _ hok => hok.1)
  have hC := copying_of_exec hcopies hrun h0
  have hthrew : ∀ e, x.1 ≠ .threw e := by
    intro e he
    refine not_threw_of_exec hcopies h h0 hg e ?_
    exact (foldl_see_of_end _ (.inr ⟨e, he⟩)).trans he
  have hends : x.1.call turn = none → x.1 = .finished ∨ ∃ input, x.1 = .looping input ∧ turn input = .waits := by
    intro hcall
    cases hx : x.1 with
    | looping input =>
      rw [hx] at hcall
      cases ht : turn input with
      | waits => exact .inr ⟨input, rfl, ht⟩
      | writes data rest => simp [CopyStage.call, ht] at hcall
      | leaves => simp [CopyStage.call, ht] at hcall
    | finished => exact .inl rfl
    | threw e => exact absurd hx (hthrew e)
  refine ⟨hthrew, hC.in_order, hends, ?_, ?_⟩
  · intro hx
    have hahead : (copyWorker turn).ahead w x = .finished := (foldl_see_of_end _ (.inl hx)).trans hx
    rw [hahead] at hC
    generalize (x.2.phase w).local? = l? at hC
    cases hC with
    | finished hw hbytes => exact ⟨hw, hbytes⟩
  · intro ho hq hout
    rcases hq w with hw | ⟨c, l, hasleep⟩
    · rcases hends (hout hw) with hx | ⟨input, hx, hturn⟩
      · exact .finished hx
      · exact .waiting input hx hturn
    · exact rests_of_asleep hcopies hrun h0 ho hq hasleep

end Runs

/-- The worker calls `op`, as a test. -/
def CopyStage.calls (turn : ι → Turn ι) (g : CopyStage ι) (op : PipeOp) : Bool :=
  match g.call turn, op with
  | some (.write data none), .write data' none => decide (data.bytes = data'.bytes)
  | some .completeWriter, .completeWriter => true
  | _, _ => false

theorem CopyStage.call_eq {op : PipeOp} (h : g.calls turn op = true) : g.call turn = some op := by
  unfold CopyStage.calls at h
  split at h
  · rename_i data data' hcall
    obtain ⟨bytes, size_lt⟩ := data
    obtain ⟨bytes', size_lt'⟩ := data'
    obtain rfl : bytes = bytes' := of_decide_eq_true h
    exact hcall
  · rename_i hcall
    exact hcall
  · cases h

def ChunkSize.sixteen : ChunkSize := ⟨16, by decide, by decide⟩

end Xtd
