import Xtd.Concurrency.Charges
import Xtd.Pipeline.IngestedLines
import Xtd.Pipeline.Progress

/-!
# Ingestion comes to an end

A worker of `pipe_utils.h` and the delimiter parser of `pipeline.md` take only so many steps.  Every byte pays for the
passes of the loop of `write`, for the wake-ups and for the turn of the parser in which it is examined; the pause of the
writer is paid for in advance by whoever resumes it.
-/

namespace Xtd

open Concurrency

variable {ρ π τ ι : Type} {o : ValidatedOptions} {p q : Pipe ρ π} {n : Nat}

/-! ### The charges -/

namespace PipeLocal

/-- What a place of a call is charged among `n` threads.  For a byte of a `write` it is the turn of the parser in which the
byte is examined (15), the chunk (1) and the notification of the reader (3). -/
def charge (n : Nat) : PipeLocal → Nat
  | writeTop _ data _ _ => 19 * data.length + 3
  | writeLoop _ data _ notify _ => 19 * data.length + 3 * notify.toNat + 1
  | readTop _ _ => 3
  | readAfterWait _ _ => 1
  | advance _ _ => 8
  | completeWriter => 4 * n + 7
  | completeReader => 0

/-- A `write` without a stop token that is at its inner loop when the writer is paused goes back to its wait. -/
def surcharge (paused : Bool) : PipeLocal → Nat
  | writeLoop _ _ _ _ none => if paused then 4 else 0
  | _ => 0

theorem surcharge_le (paused : Bool) (l : PipeLocal) : l.surcharge paused ≤ l.surcharge true := by
  unfold surcharge
  split
  · cases paused <;> simp
  · exact Nat.le_refl 0

end PipeLocal

def pipeCharges (ρ π : Type) (n : Nat) : Charges (Pipe ρ π) PipeLocal where
  arriving l := l.charge n + l.surcharge true
  waiting l := l.charge n
  holding l p := l.charge n + l.surcharge p.writerPaused

/-- The bytes that no turn of the reader has examined. -/
def Pipe.unexamined (p : Pipe ρ π) : Nat :=
  p.bufferedSize - if p.hasPendingRead then p.pendingReadSize else p.examinedSize

/-- What the pipeline still causes: turns of the reader, and a pause. -/
def Pipe.due (p : Pipe ρ π) : Nat := 15 * p.unexamined + if p.writerPaused then 0 else 4

namespace CopyStage

/-- What a worker has for its bytes and for the completion of the writer. -/
def budget (bytes : ι → List Byte) (n : Nat) : CopyStage ι → Nat
  | looping input => 24 * (bytes input).length + (4 * n + 9)
  | finished | threw _ => 0

/-- What a worker has left in a call. -/
def budgetInside (turn : ι → Turn ι) (bytes : ι → List Byte) (n : Nat) : CopyStage ι → Nat
  | looping input =>
    match turn input with
    | .writes _ rest => budget bytes n (.looping rest)
    | .waits | .leaves => 0
  | finished | threw _ => 0

end CopyStage

namespace DelimiterParser

/-- What the parser has for its next turn. -/
def budget (g : DelimiterParser) : Nat :=
  match g.stage with
  | .reading => 15
  | .advancing _ true => 10
  | .advancing _ false => 25
  | _ => 0

/-- What the parser has left in a call. -/
def budgetInside (g : DelimiterParser) : Nat :=
  match g.stage with
  | .reading => 10
  | .advancing _ false => 15
  | _ => 0

end DelimiterParser

/-! ### The worker pays -/

section

variable {turn : ι → Turn ι} {bytes : ι → List Byte} {total : List Byte} {tr : List PipeEvent} {g : CopyStage ι}

/-- The worker pays for a call from its budget. -/
theorem Copying.enter_lt (hcopies : Copies turn bytes) (h : Copying turn bytes total tr p g none) {op : PipeOp}
    (hcall : g.call turn = some op) (i : Nat) :
    (pipeCharges ρ π n).enter (op.enter i).2 +
      Client.credit (CopyStage.budget bytes n) (CopyStage.budgetInside turn bytes n) (op.enter i).2
        ((op.enter i).1.foldl (CopyStage.see turn) g) < g.budget bytes n := by
  rw [(h.call hcopies hcall i).2.1]
  cases h with
  | looping input hw hbytes =>
    unfold CopyStage.call at hcall
    dsimp only at hcall
    split at hcall
    · cases hcall
    · rename_i data rest hturn
      cases hcall
      obtain ⟨hne, hinput⟩ := hcopies.writes hturn
      have hpos := List.length_pos_of_ne_nil hne
      have henter : ((PipeOp.write data none).enter i).2 = some (.writeTop i data.bytes 0 none) := by
        simp [PipeOp.enter, hne]
      rw [henter]
      simp only [Charges.enter, pipeCharges, Option.map_some, Option.getD_some, Client.credit, Option.isSome_some,
        if_true, CopyStage.budgetInside, hturn, CopyStage.budget, hinput, List.length_append, PipeLocal.charge,
        PipeLocal.surcharge]
      omega
    · rename_i hturn
      cases hcall
      simp only [PipeOp.enter, Charges.enter, pipeCharges, Option.map_some, Option.getD_some, Client.credit,
        Option.isSome_some, if_true, CopyStage.budgetInside, hturn, CopyStage.budget, PipeLocal.charge,
        PipeLocal.surcharge]
      omega
  | finished => cases hcall
  | threw => cases hcall

variable [MemoryResource ρ π]

/-- What is left after a piece of the worker. -/
def CopyStage.leftAfter (turn : ι → Turn ι) (bytes : ι → List Byte) (n : Nat) (g : CopyStage ι)
    (r : PipePiece ρ π) : Nat :=
  (copyWorker turn).leftAfter (pipeCharges ρ π n) Pipe.due (CopyStage.budget bytes n)
    (CopyStage.budgetInside turn bytes n) n g r

omit [MemoryResource ρ π] in
/-- `write` unlocks: it ends, or goes back to its top if the writer is paused. -/
private theorem leftAfter_writeUnlock (bytes : ι → List Byte) (n : Nat) {input rest : ι} {chunk : Span}
    (call copied : Nat) (data : List Byte) (notify : Bool) (hturn : turn input = .writes chunk rest) :
    CopyStage.leftAfter turn bytes n (.looping input) (p.writeUnlock call data copied notify none false) ≤
      p.due + 19 * data.length + 3 * notify.toNat + 4 + CopyStage.budget bytes n (.looping rest) ∧
    (data = [] → CopyStage.leftAfter turn bytes n (.looping input) (p.writeUnlock call data copied notify none false) ≤
      p.due + 3 * notify.toNat + CopyStage.budget bytes n (.looping rest)) := by
  have hprices : Charges.prices n (if notify then [Notification.one CondVar.dataAvailable] else []) =
      3 * notify.toNat := by
    cases notify <;> rfl
  rcases writeUnlock_cases p call data copied notify none false with ⟨rfl, he⟩ | ⟨hne, he⟩ <;> rw [he]
  · have hafter : (copyWorker turn).after (.looping input) (⟨p, [], .release (if notify then [.one .dataAvailable] else [])
        (.done [.writeReturn call copied false])⟩ : PipePiece ρ π) = .looping rest := by
      show CopyStage.see turn (.looping input) (.writeReturn call copied false) = .looping rest
      simp only [CopyStage.see, hturn]
    unfold CopyStage.leftAfter Client.leftAfter
    rw [hafter]
    simp only [Charges.next, hprices, Charges.after, Next.local?, Client.credit, Option.isSome_none, Bool.false_eq_true,
      if_false]
    omega
  · have hafter : (copyWorker turn).after (.looping input) (⟨p, [], .release (if notify then [.one .dataAvailable] else [])
        (.again (.writeTop call data copied none))⟩ : PipePiece ρ π) = .looping input := rfl
    unfold CopyStage.leftAfter Client.leftAfter
    rw [hafter]
    simp only [Charges.next, hprices, Charges.after, Next.local?, Client.credit, Option.isSome_some, if_true,
      CopyStage.budgetInside, hturn, pipeCharges, PipeLocal.charge, PipeLocal.surcharge]
    exact ⟨by omega, fun h => absurd h hne⟩

omit [MemoryResource ρ π] in
/-- An exception of `write` ends the worker. -/
private theorem leftAfter_throw {input : ι} {call : Nat} {e : Exn} :
    CopyStage.leftAfter turn bytes n (.looping input)
      (⟨p, [], .release [] (.done [.writeThrow call e])⟩ : PipePiece ρ π) = p.due := rfl

/-- A chunk adds its bytes to those that are not examined. -/
private theorem unexamined_chunk (hA : Accounted o p) {data : List Byte} {oom : Bool} {k : Nat} (hd : data ≠ [])
    (ha : p.writerAvailableCapacity o ≠ 0)
    (hq : p.copyChunk o data (p.writerAvailableCapacity o) oom = some (q, k)) :
    1 ≤ k ∧ k ≤ data.length ∧ q.unexamined ≤ p.unexamined + k := by
  obtain ⟨hA', hpos, hk, hbytes, -⟩ := copyChunk_spec hA hd ha hq
  refine ⟨hpos, hk, ?_⟩
  have hbuffered : q.bufferedSize = p.bufferedSize + k := by
    rw [hA'.buffered, ← length_readableBytes, hbytes, List.length_append, List.length_take, length_readableBytes,
      ← hA.buffered]
    omega
  obtain ⟨r, segs, b, a, rfl⟩ := copyChunk_frame hq
  unfold Pipe.unexamined
  rw [hbuffered]
  dsimp only
  omega

/-- Every piece of the worker is paid for. -/
theorem Copying.piece_lt (hA : Accounted o p) {l : PipeLocal} (h : Copying turn bytes total tr p g (some l))
    (oom : Bool) :
    CopyStage.leftAfter turn bytes n g ((pipeline ρ o).exec l p false oom) <
      p.due + (pipeCharges ρ π n).holding l p + g.budgetInside turn bytes n := by
  have hm := pipe_moves o l p false oom
  generalize (pipeline ρ o).exec l p false oom = r at hm ⊢
  cases h with
  | completing input hw hbytes =>
    cases hm
    have hsame : (p.completeWriter).shared.unexamined = p.unexamined := rfl
    have hfree : (p.completeWriter).shared.writerPaused = false := rfl
    show (p.completeWriter).shared.due + (2 * n + 1 + (2 * n + 1 + 0) + 0) + 0 < _
    unfold Pipe.due
    rw [hsame, hfree]
    simp only [pipeCharges, PipeLocal.charge, PipeLocal.surcharge]
    split <;> omega
  | writing input rest chunk _ call copied data hturn hl htoken hw hbytes =>
    have hinside : CopyStage.budgetInside turn bytes n (.looping input) = CopyStage.budget bytes n (.looping rest) := by
      simp only [CopyStage.budgetInside, hturn]
    rw [hinside]
    cases hm with
    | topThrow hc =>
      rw [leftAfter_throw]
      cases hl
      simp only [pipeCharges, PipeLocal.charge]
      omega
    | topWait hc =>
      cases hl
      cases htoken
      show p.due + (19 * data.length + 3 * 0 + 1 + 1) + CopyStage.budgetInside turn bytes n (.looping input) < _
      rw [hinside]
      simp only [pipeCharges, PipeLocal.charge]
      omega
    | @leave _ _ _ notify _ _ _ hd =>
      cases hl
      cases htoken
      obtain ⟨hle, hend⟩ := leftAfter_writeUnlock (p := p) bytes n call copied data notify hturn
      simp only [pipeCharges, PipeLocal.charge, PipeLocal.surcharge]
      rcases hd with hd | hpaused
      · have := hend hd
        omega
      · rw [hpaused, if_pos rfl]
        omega
    | loopThrow hd hp hc =>
      rw [leftAfter_throw]
      cases hl
      simp only [pipeCharges, PipeLocal.charge]
      omega
    | @pause _ _ _ notify _ _ hd hp hc ha =>
      cases hl
      cases htoken
      -- whoever has resumed the writer has paid for this pause
      obtain ⟨hle, -⟩ := leftAfter_writeUnlock (p := { p with writerPaused := true }) bytes n call copied data
        notify hturn
      have hdue : p.due = ({ p with writerPaused := true } : Pipe ρ π).due + 4 := by
        unfold Pipe.due
        rw [hp]
        rfl
      simp only [pipeCharges, PipeLocal.charge]
      omega
    | loopOom hd hp hc ha hq =>
      rw [leftAfter_throw]
      cases hl
      simp only [pipeCharges, PipeLocal.charge]
      omega
    | @chunk _ _ _ notify _ _ q k hd hp hc ha hq =>
      cases hl
      cases htoken
      obtain ⟨hpos, hk, hunexamined⟩ := unexamined_chunk hA hd ha hq
      have hafter : (copyWorker turn).after (.looping input)
          (⟨{ q with writerPaused := q.writerPaused || q.shouldPauseWriter o }, [.commit call (data.take k)],
            .hold (.writeLoop call (data.drop k) (SizeT.add copied k) (notify || q.readerWaiting) none)⟩ :
            PipePiece ρ π) = .looping input := rfl
      unfold CopyStage.leftAfter Client.leftAfter
      rw [hafter]
      simp only [Charges.next, Next.local?, Client.credit, Option.isSome_some, if_true, hinside, pipeCharges,
        PipeLocal.charge, PipeLocal.surcharge, List.length_drop, Pipe.due, hp]
      have hnotify : (notify || q.readerWaiting).toNat ≤ notify.toNat + 1 := by
        cases notify <;> cases q.readerWaiting <;> simp
      change 15 * q.unexamined + _ + _ + _ < _
      cases q.writerPaused || q.shouldPauseWriter o <;> simp <;> omega
    | readThrow => cases hl
    | readWait => cases hl
    | readNow => cases hl
    | readAfter => cases hl
    | advanceThrow => cases hl
    | advanceFault => cases hl
    | advance => cases hl
    | completeWriter => cases hl
    | completeReader => cases hl

end

/-! ### The parser pays -/

section

variable [MemoryResource ρ π] {token : Option Nat} {tr : List PipeEvent} {g : DelimiterParser}

omit [MemoryResource ρ π] in
/-- The parser pays for a call from its budget. -/
theorem Framed.enter_lt (hA : Accounted o p) (h : Framed token tr p g none) {op : PipeOp}
    (hcall : g.call token = some op) (i : Nat) :
    (pipeCharges ρ π n).enter (op.enter i).2 +
      Client.credit DelimiterParser.budget DelimiterParser.budgetInside (op.enter i).2
        ((op.enter i).1.foldl DelimiterParser.see g) < g.budget := by
  have hnil := (h.call hA hcall i).1
  have hen := pipe_enters op i
  rw [hnil] at hen ⊢
  generalize (op.enter i).2 = l? at hen ⊢
  cases h with
  | reading =>
    cases hcall
    cases hen
    show 3 + 0 + 1 + 10 < 15
    omega
  | advancing lines remaining completed =>
    cases hcall
    cases hen
    cases completed with
    | true =>
      show 8 + 0 + 1 + 0 < 10
      omega
    | false =>
      show 8 + 0 + 1 + 15 < 25
      omega
  | finished => cases hcall
  | cancelled => cases hcall

/-- What is left after a piece of the parser. -/
def DelimiterParser.leftAfter (n : Nat) (g : DelimiterParser) (r : PipePiece ρ π) : Nat :=
  (delimiterParser none).leftAfter (pipeCharges ρ π n) Pipe.due DelimiterParser.budget DelimiterParser.budgetInside n g r

omit [MemoryResource ρ π] in
/-- A read that returns has bytes to examine, unless it is the last one. -/
private theorem leftAfter_readTail (hlt : readableSize p.segments < SizeT.modulus)
    (hbuffered : p.bufferedSize = readableSize p.segments) (hpending : p.hasPendingRead = false)
    (lines : List SegmentedByteView) (stop : Bool) (hdata : stop = true ∨ p.dataAvailable 0 = true) :
    DelimiterParser.leftAfter n ⟨lines, .reading⟩ (p.readTail stop) ≤ p.due + 10 := by
  rcases readTail_cases p stop with ⟨-, he⟩ | ⟨hstop, he⟩ <;> rw [he]
  · show p.due + 0 + 0 ≤ p.due + 10
    omega
  · have hv := wellFormed_makeReadableView hlt
    have hsize := size_makeReadableView hlt
    have hbegin : (makeReadableView p.segments).beginOffset = 0 := rfl
    obtain ⟨lines', rest, hloop, -⟩ := SegmentedByteView.lineLoop_spec hv (by omega) (Nat.lt_succ_self _)
    have hafter : (delimiterParser none).after ⟨lines, .reading⟩
        (⟨{ p with hasPendingRead := true, pendingReadSize := (makeReadableView p.segments).size },
          [.readReturn (makeReadableView p.segments) p.writerCompleted], .release [] (.done [])⟩ : PipePiece ρ π) =
        ⟨lines ++ lines', .advancing rest p.writerCompleted⟩ := by
      show DelimiterParser.parse _ _ _ = _
      rw [DelimiterParser.parse, hloop]
    have hdue : ({ p with hasPendingRead := true, pendingReadSize := (makeReadableView p.segments).size } :
        Pipe ρ π).due + 15 * p.unexamined = p.due := by
      unfold Pipe.due Pipe.unexamined
      simp only [if_true]
      omega
    unfold DelimiterParser.leftAfter Client.leftAfter
    rw [hafter]
    show Pipe.due { p with hasPendingRead := true, pendingReadSize := (makeReadableView p.segments).size } + 0 +
      DelimiterParser.budget ⟨lines ++ lines', .advancing rest p.writerCompleted⟩ ≤ _
    generalize Pipe.due { p with hasPendingRead := true, pendingReadSize := (makeReadableView p.segments).size } = due
      at hdue ⊢
    cases hw : p.writerCompleted with
    | true =>
      show due + 0 + 10 ≤ _
      omega
    | false =>
      have hmore : 1 ≤ p.unexamined := by
        rcases hdata with hdata | hdata
        · rw [hstop] at hdata
          cases hdata
        · unfold Pipe.dataAvailable at hdata
          simp only [hw, Bool.false_or, decide_true, Bool.true_or, Bool.and_true, decide_eq_true_eq] at hdata
          unfold Pipe.unexamined
          rw [hpending, if_neg Bool.false_ne_true]
          omega
      show due + 0 + 25 ≤ _
      omega

/-- Every piece of the parser is paid for. -/
theorem Framed.piece_lt (hA : Accounted o p) (hr : p.readerCompleted = false) {l : PipeLocal}
    (h : Framed token tr p g (some l)) (stop oom : Bool)
    (hdata : ∀ token', l = .readAfterWait 0 token' → stop = true ∨ p.dataAvailable 0 = true) :
    DelimiterParser.leftAfter n g ((pipeline ρ o).exec l p stop oom) <
      p.due + (pipeCharges ρ π n).holding l p + g.budgetInside := by
  have hlt : readableSize p.segments < SizeT.modulus := hA.buffered ▸ hA.buffered_lt
  cases h with
  | reading lines _ hl hpending hlines =>
    rcases hl l rfl with rfl | rfl
    · have hm := pipe_moves o (.readTop 0 token) p stop oom
      generalize (pipeline ρ o).exec (.readTop 0 token) p stop oom = r at hm ⊢
      show _ < p.due + (3 + 0) + 10
      cases hm with
      | readThrow e h =>
        rw [hpending, hr] at h
        rcases h with h | h <;> cases h
      | readWait =>
        show p.due + (1 + 1) + 10 < _
        omega
      | readNow _ _ hw =>
        have hle := leftAfter_readTail (n := n) hlt hA.buffered hpending lines stop
          (.inr (by simp [Pipe.dataAvailable, hw]))
        omega
    · have hle := leftAfter_readTail (n := n) (p := { p with readerWaiting := false }) hlt hA.buffered hpending lines
        stop (hdata token rfl)
      show _ < p.due + (1 + 0) + 10
      change DelimiterParser.leftAfter n ⟨lines, .reading⟩
        (({ p with readerWaiting := false } : Pipe ρ π).readTail stop) < _
      change _ ≤ p.due + 10 at hle
      omega
  | advancing lines remaining completed _ more hl hpending hsize hbytes hbegin hcompleted hfree =>
    obtain rfl := hl l rfl
    have hpend := hA.pending
    obtain ⟨hexit, -⟩ := consume_spec hA (show remaining.beginOffset ≤ p.bufferedSize by omega)
    have hbuffered := consume_bufferedSize hA (show remaining.beginOffset ≤ p.bufferedSize by omega)
    have hm := pipe_moves o (.advance remaining.beginOffset (remaining.beginOffset + remaining.size)) p stop oom
    generalize (pipeline ρ o).exec (.advance remaining.beginOffset (remaining.beginOffset + remaining.size)) p stop oom
      = r at hm ⊢
    cases hm with
    | advanceThrow e h => exact absurd h (not_advanceThrow hr hpending (Nat.le_of_eq hsize.symm))
    | advanceFault evs _ _ _ hx => exact absurd hexit hx
    | advance q paused _ _ _ _ hq =>
      have hlt := hA.buffered_lt
      have hexamined : SizeT.sub (remaining.beginOffset + remaining.size) remaining.beginOffset = remaining.size := by
        rw [SizeT.sub_eq (Nat.le_add_right _ _) (by omega)]
        omega
      -- the consumed bytes were examined, and the others stay examined
      have hsame : Pipe.unexamined { q with writerPaused := paused, pendingReadSize := 0, hasPendingRead := false } =
          p.unexamined := by
        show q.bufferedSize - q.examinedSize = _
        rw [hq]
        show (p.consume o remaining.beginOffset).bufferedSize -
          SizeT.sub (remaining.beginOffset + remaining.size) remaining.beginOffset = _
        unfold Pipe.unexamined
        rw [hexamined, hbuffered, hpending, if_pos rfl, hsize]
        omega
      have hprices : Charges.prices n
          (if p.writerPaused && !paused then [Notification.one CondVar.spaceAvailable] else []) ≤ 3 := by
        split
        · exact Nat.le_refl 3
        · exact Nat.zero_le 3
      have hdue : Pipe.due { q with writerPaused := paused, pendingReadSize := 0, hasPendingRead := false } ≤
          p.due + 4 := by
        unfold Pipe.due
        rw [hsame]
        dsimp only
        split <;> split <;> omega
      cases completed with
      | true =>
        change Pipe.due { q with writerPaused := paused, pendingReadSize := 0, hasPendingRead := false } +
          (Charges.prices n _ + 0) + 0 < p.due + (8 + 0) + 0
        omega
      | false =>
        change Pipe.due { q with writerPaused := paused, pendingReadSize := 0, hasPendingRead := false } +
          (Charges.prices n _ + 0) + 15 < p.due + (8 + 0) + 15
        omega

end

/-! ### Runs -/

section Runs

variable [MemoryResource ρ π] [DecidableEq τ] [Fintype τ] {m : ρ} {w c : τ} {token : Option Nat} {turn : ι → Turn ι}
  {bytes : ι → List Byte} {total : List Byte} {tr : List PipeEvent} {g₀ : CopyStage ι}
  {x : (CopyStage ι × DelimiterParser) × PipeState τ ρ π} {as : List (PipeAction τ)}

/-- In every run of a worker and the parser both can pay for their next call and their next piece. -/
theorem bothAfford_of_exec (hcopies : Copies turn bytes)
    (h : (Client.pair (copyWorker turn) (delimiterParser token) (pipeline ρ o) w c).Exec (LineRun turn token w c)
      ((g₀, .new), State.init (Pipe.new m)) tr x)
    (h0 : Copying turn bytes total [] (Pipe.new m : Pipe ρ π) g₀ none) :
    Client.BothAfford (copyWorker turn) (delimiterParser token) (pipeline ρ o) (pipeCharges ρ π (Fintype.card τ)) Pipe.due
      (CopyStage.budget bytes (Fintype.card τ)) (CopyStage.budgetInside turn bytes (Fintype.card τ))
      DelimiterParser.budget DelimiterParser.budgetInside w c x := by
  have hparser := parser_exec h
  have hworker := (worker_exec h).mono fun _ _ hok => hok.1
  have hrun : ((pipeline ρ o).machine τ).Exec Machine.Any (State.init (Pipe.new m)) tr x.2 :=
    Client.exec_pair h (fun _ _ _ _ _ => trivial)
  have hr : x.2.shared.readerCompleted = false := (parser_locals hparser).1
  have hA := accounted_of_open hrun hr
  have hC := copying_of_exec hcopies hworker h0
  obtain ⟨hF, -, hdone⟩ := framed_of_exec hparser
  have hahead : (delimiterParser token).ahead c (x.1.2, x.2) = x.1.2 := Client.ahead_of_nil hdone
  refine ⟨⟨?_, ?_⟩, ⟨?_, ?_⟩, ?_, ?_⟩
  · intro op hout hcall
    rw [hout] at hC
    exact hC.enter_lt hcopies hcall x.2.calls
  · intro l oom hl
    rw [hl] at hC
    have hlt := hC.piece_lt (n := Fintype.card τ) hA oom
    have hstop : x.2.stop l.token = false := by
      rw [hC.token]
      rfl
    have hpiece : (pipeline ρ o).piece x.2 l oom = (pipeline ρ o).exec l x.2.shared false oom := by
      show (pipeline ρ o).exec l x.2.shared (x.2.stop l.token) oom = _
      rw [hstop]
    rw [hpiece]
    exact hlt
  · intro op hout hcall
    rw [hout] at hF
    rw [hahead] at hcall ⊢
    exact hF.enter_lt hA hcall x.2.calls
  · intro l oom hl
    rw [hl] at hF
    rw [hahead]
    refine hF.piece_lt hA hr (x.2.stop l.token) oom ?_
    rintro token' rfl
    exact dataAvailable_of_readAfterWait hrun hl
  · intro l p
    exact Nat.add_le_add_left (PipeLocal.surcharge_le p.writerPaused l) _
  · intro t cv l hl hpass
    rcases waits_of_exec (exec_notifies hcopies h h0) (t := t) (by rw [hl]; rfl) with
      ⟨-, minSize, token', rfl⟩ | ⟨rfl, call, data, copied, token', rfl⟩
    · exact Nat.le_refl _
    · cases token' with
      | some k => exact Nat.le_refl _
      | none =>
        have hfree : x.2.shared.writerPaused = false := by
          rcases hpass with hstop | hpred
          · cases hstop
          · simpa [pipeline, Pipe.spaceAvailable] using hpred
        show _ + PipeLocal.surcharge x.2.shared.writerPaused _ ≤ _
        rw [hfree]
        exact Nat.le_refl _

/-- The two threads take no more steps than the bytes and the wake-ups from outside allow. -/
theorem ingestion_length_le (hcopies : Copies turn bytes) (hwc : w ≠ c)
    (h0 : Copying turn bytes total [] (Pipe.new m : Pipe ρ π) g₀ none)
    (h : (Client.pair (copyWorker turn) (delimiterParser token) (pipeline ρ o) w c).Path (LineRun turn token w c)
      ((g₀, .new), State.init (Pipe.new m)) as x) :
    as.length ≤ 24 * total.length + 4 * Fintype.card τ + 28 + (as.map (Action.causes (Fintype.card τ))).sum := by
  have hle := Client.pair_length_le hwc rfl (fun _ _ hok => hok.1) (fun tr y hrun => bothAfford_of_exec hcopies hrun h0) h
  have hbudget : CopyStage.budget bytes (Fintype.card τ) g₀ ≤ 24 * total.length + (4 * Fintype.card τ + 9) := by
    cases h0 with
    | looping input _ hbytes =>
      rw [← hbytes]
      exact Nat.le_refl _
    | finished => exact Nat.zero_le _
    | threw => exact Nat.zero_le _
  -- nobody is inside yet
  have hstart : Client.pairWork (copyWorker turn) (delimiterParser token) (pipeCharges ρ π (Fintype.card τ)) Pipe.due
      (CopyStage.budget bytes (Fintype.card τ)) (CopyStage.budgetInside turn bytes (Fintype.card τ))
      DelimiterParser.budget DelimiterParser.budgetInside w c ((g₀, .new), (State.init (Pipe.new m) : PipeState τ ρ π)) =
      4 + CopyStage.budget bytes (Fintype.card τ) g₀ + 15 := by
    show 4 + (∑ _t : τ, 0) + CopyStage.budget bytes (Fintype.card τ) g₀ + 15 = _
    rw [Finset.sum_const_zero]
    omega
  rw [hstart] at hle
  omega

end Runs

/-- Ingestion comes to an end, for every sequence of results of `recv` and every file, whatever the schedule: a run of a
worker and the parser is not longer than a constant for every byte that arrives, and a constant for the rest, except for
what the wake-ups for no reason and the stop requests add.  So the two threads do not keep each other busy without moving
bytes, also when the writer is paused and resumed again and again. -/
theorem ingestion_ends {ρ π τ : Type} [MemoryResource ρ π] [DecidableEq τ] [Fintype τ] (o : ValidatedOptions)
    (token : Option Nat) {w c : τ} (hwc : w ≠ c) (m : ρ) (chunkSize : ChunkSize) :
    (∀ (recvs : List (RecvResult chunkSize)) as
        (x : (CopyStage (List (RecvResult chunkSize)) × DelimiterParser) × PipeState τ ρ π),
      (Client.pair (copyWorker socketTurn) (delimiterParser token) (pipeline ρ o) w c).Path
        (LineRun socketTurn token w c) ((socketWorker (.ok ()) recvs, .new), State.init (Pipe.new m)) as x →
      as.length ≤ 24 * (socketBytes recvs).length + 4 * Fintype.card τ + 28 +
        (as.map (Action.causes (Fintype.card τ))).sum) ∧
    ∀ (file : Option (List Byte)) as (x : (CopyStage FileInput × DelimiterParser) × PipeState τ ρ π),
      (Client.pair (copyWorker (fileTurn chunkSize)) (delimiterParser token) (pipeline ρ o) w c).Path
        (LineRun (fileTurn chunkSize) token w c) ((fileWorker (.ok ()) file, .new), State.init (Pipe.new m)) as x →
      as.length ≤ 24 * (file.getD []).length + 4 * Fintype.card τ + 28 +
        (as.map (Action.causes (Fintype.card τ))).sum := by
  constructor
  · intro recvs as x h
    exact ingestion_length_le socket_copies hwc (.looping recvs rfl rfl) h
  · intro file as x h
    have h0 : Copying (fileTurn chunkSize) fileBytes (file.getD []) [] (Pipe.new m : Pipe ρ π)
        (fileWorker (.ok ()) file) none := by
      cases file <;> exact .looping _ rfl rfl
    exact ingestion_length_le (file_copies chunkSize) hwc h0 h

/-- As `handOutLine`, but thread `1` first wakes up for no reason and goes back to sleep, and a stop is requested on a token
that nobody uses. -/
def sleepTwice : List (PipeAction (Fin 2)) :=
  handOutLine.take 4 ++ [.spurious 1, .run 1 false, .run 1 false, .requestStop 0] ++ handOutLine.drop 4

theorem ingestion_ends_sleepTwice :
    ∃ x : (CopyStage (List (RecvResult ChunkSize.sixteen)) × DelimiterParser) × PipeState (Fin 2) FixedPoolResource Nat,
      (Client.pair (copyWorker socketTurn) (delimiterParser none) (pipeline FixedPoolResource .small) 0 1).Path
        (LineRun socketTurn none 0 1) ((socketWorker (.ok ()) lineInTwoParts, .new), State.init (Pipe.new (.make .small)))
        sleepTwice x ∧
      x.1.2.lines.map SegmentedByteView.flatten = [[120, 121]] ∧
      sleepTwice.length ≤ 24 * (socketBytes lineInTwoParts).length + 4 * 2 + 28 + (3 + 5) := by
  have hrun : ((Client.pair (copyWorker socketTurn) (delimiterParser none) (pipeline FixedPoolResource .small)
      (0 : Fin 2) 1).run lineStep
      ((socketWorker (.ok ()) lineInTwoParts, .new), State.init (Pipe.new (.make .small))) sleepTwice).any
      (fun y => decide (y.2.1.2.lines.map SegmentedByteView.flatten = [[120, 121]])) = true := by decide
  rw [Option.any_eq_true] at hrun
  obtain ⟨⟨tr, x⟩, hr, hlines⟩ := hrun
  have h := Machine.path_of_run lineRun_of_lineStep hr
  have hle := (ingestion_ends .small none (by decide) (.make .small) ChunkSize.sixteen).1 lineInTwoParts sleepTwice x h
  refine ⟨x, h, of_decide_eq_true hlines, ?_⟩
  rw [Fintype.card_fin] at hle
  exact hle

end Xtd
