import Xtd.Concurrency.WakeUp
import Xtd.Pipeline.FixedPool
import Xtd.Pipeline.Stream

/-!
# Wake-ups of the pipeline

`write` collects in a local flag that the reader has to be notified and notifies when its inner loop is over.  The loop
also ends by `return copied` on a stop request and by an exception of the memory resource; then the flag is dropped.
For one writing and one reading thread, runs in which the flag is not dropped while a reader sleeps that could go on
lose no wake-up.  The wake-up of a single writer is never lost, whoever reads.
-/

namespace Xtd

open Concurrency

variable {ρ π τ : Type} [MemoryResource ρ π] [DecidableEq τ] [Fintype τ] {o : ValidatedOptions} {p : Pipe ρ π}

/-- Thread `w` is the only one that writes and thread `r` the only one that reads. -/
def OneWriterOneReader (w r : τ) (_ : PipeState τ ρ π) (a : PipeAction τ) : Prop :=
  (∀ t data token, a = .call t (.write data token) → t = w) ∧
    ∀ t minSize token, a = .call t (.readAtLeast minSize token) → t = r

/-- The chunk loop of `write` is not left by a stop request or a failing allocation, with its flag set, while a reader is
asleep that could go on. -/
def KeepsNotification (o : ValidatedOptions) (s : PipeState τ ρ π) (a : PipeAction τ) : Prop :=
  ∀ t oom call data copied token, a = .run t oom → s.phase t = .locked (.writeLoop call data copied true token) →
    data ≠ [] → s.shared.writerPaused = false →
    (s.stop token = true ∨
      s.shared.writerAvailableCapacity o ≠ 0 ∧
        s.shared.copyChunk o data (s.shared.writerAvailableCapacity o) oom = none) →
    ∀ u minSize token', s.phase u = .asleep .dataAvailable (.readAfterWait minSize token') →
      s.shared.dataAvailable minSize = false

/-- The runs of one writer and one reader in which no notification is dropped. -/
def Notifies (o : ValidatedOptions) (w r : τ) (s : PipeState τ ρ π) (a : PipeAction τ) : Prop :=
  OneWriterOneReader w r s a ∧ KeepsNotification o s a

namespace PipeLocal

def isWrite : PipeLocal → Bool
  | writeTop _ _ _ _ | writeLoop _ _ _ _ _ => true
  | _ => false

def isRead : PipeLocal → Bool
  | readTop _ _ | readAfterWait _ _ => true
  | _ => false

def isReadWait : PipeLocal → Bool
  | readAfterWait _ _ => true
  | _ => false

/-- The flag of a write that has to notify the reader. -/
def owes : PipeLocal → Bool
  | writeLoop _ _ _ notify _ => notify
  | _ => false

/-- What a call answers for: a reader and a writer in or behind their waits for their own wake-up, a write with its flag
set for that of the reader. -/
def worth (c : CondVar) (l : PipeLocal) (_ : Bool) : Nat :=
  match c, l with
  | .dataAvailable, readAfterWait _ _ => 1
  | .dataAvailable, writeLoop _ _ _ notify _ => notify.toNat
  | .spaceAvailable, writeLoop _ _ _ _ _ => 1
  | _, _ => 0

end PipeLocal

/-! ### Who is where -/

/-- Only `w` is in a write, only `r` in a read, and a read in or behind its wait has announced itself. -/
structure Placed (w r : τ) (t : τ) (l : PipeLocal) (p : Pipe ρ π) : Prop where
  writer : l.isWrite = true → t = w
  reader : l.isRead = true → t = r
  waiting : l.isReadWait = true → p.readerWaiting = true ∧ p.hasPendingRead = false

/-- What the piece at `l` does to the announcement of a waiting read, if it is not a read itself. -/
private theorem announced_piece {l : PipeLocal} (hl : l.isRead = false) (stop oom : Bool)
    (hw : p.readerWaiting = true) (hp : p.hasPendingRead = false) :
    ((pipeline ρ o).exec l p stop oom).shared.readerWaiting = true ∧
      ((pipeline ρ o).exec l p stop oom).shared.hasPendingRead = false := by
  have hm := pipe_moves o l p stop oom
  generalize (pipeline ρ o).exec l p stop oom = r at hm ⊢
  cases hm with
  | chunk q n _ _ _ _ hq =>
    obtain ⟨_, _, _, _, rfl⟩ := copyChunk_frame hq
    exact ⟨hw, hp⟩
  | readThrow => cases hl
  | readWait => cases hl
  | readNow => cases hl
  | readAfter => cases hl
  | advance q paused _ h => rw [hp] at h; cases h
  | completeReader => exact ⟨hw, rfl⟩
  | _ => exact ⟨hw, hp⟩

/-- The local state after a piece belongs to the same operation. -/
theorem next_placed {l l' : PipeLocal} {stop oom : Bool}
    (h : ((pipeline ρ o).exec l p stop oom).next.local? = some l') :
    (l'.isWrite = true → l.isWrite = true) ∧ (l'.isRead = true → l.isRead = true) ∧
      (l'.isReadWait = true → ((pipeline ρ o).exec l p stop oom).shared.readerWaiting = true ∧
        ((pipeline ρ o).exec l p stop oom).shared.hasPendingRead = false) := by
  have hm := pipe_moves o l p stop oom
  generalize (pipeline ρ o).exec l p stop oom = r at hm h ⊢
  cases hm with
  | leave => rw [writeUnlock_local h]; exact ⟨fun _ => rfl, nofun, nofun⟩
  | pause => rw [writeUnlock_local h]; exact ⟨fun _ => rfl, nofun, nofun⟩
  | readNow => cases (readTail_local _ _).symm.trans h
  | readAfter => cases (readTail_local _ _).symm.trans h
  | topWait => cases h; exact ⟨fun _ => rfl, nofun, nofun⟩
  | chunk => cases h; exact ⟨fun _ => rfl, nofun, nofun⟩
  | readWait hp => cases h; exact ⟨nofun, fun _ => rfl, fun _ => ⟨rfl, hp⟩⟩
  | _ => cases h

omit [MemoryResource ρ π] [DecidableEq τ] [Fintype τ] in
private theorem enter_placed {w r t : τ} {op : PipeOp} {l : PipeLocal} {s : PipeState τ ρ π} {p : Pipe ρ π}
    (hok : OneWriterOneReader w r s (.call t op)) {n : Nat} (h : (op.enter n).2 = some l) : Placed w r t l p := by
  obtain ⟨evs, hen⟩ := pipe_enters_of_some h
  cases hen with
  | write data token _ => exact ⟨fun _ => hok.1 t data token rfl, nofun, nofun⟩
  | read minSize token => exact ⟨nofun, fun _ => hok.2 t minSize token rfl, nofun⟩
  | advance => exact ⟨nofun, nofun, nofun⟩
  | completeWriter => exact ⟨nofun, nofun, nofun⟩
  | completeReader => exact ⟨nofun, nofun, nofun⟩

variable {w r : τ} {m : ρ} {tr : List PipeEvent} {s : PipeState τ ρ π}

private theorem placed_of_exec
    (h : ((pipeline ρ o).machine τ).Exec (Notifies o w r) (State.init (Pipe.new m)) tr s) :
    ∀ t l, (s.phase t).local? = some l → Placed w r t l s.shared := by
  refine (Monitor.thread_invariant (P := fun _ => True) (A := Placed w r) h trivial
    (fun s t op l hok _ he => enter_placed hok.1 he) ?_).2
  intro t l p stop oom _ hl
  refine ⟨trivial, ?_, ?_⟩
  · intro l' hl'
    obtain ⟨h1, h2, h3⟩ := next_placed hl'
    exact ⟨fun h => hl.writer (h1 h), fun h => hl.reader (h2 h), h3⟩
  · intro u l' hu hA
    refine ⟨hA.writer, hA.reader, ?_⟩
    intro hr
    -- the piece is not one of a read: `u` is the reader
    have hread : l.isRead = false := by
      cases hlr : l.isRead with
      | false => rfl
      | true =>
        have hur : u = r := hA.reader (by cases l' <;> first | rfl | cases hr)
        exact absurd (hur.trans (hl.reader hlr).symm) hu
    obtain ⟨h1, h2⟩ := hA.waiting hr
    exact announced_piece hread stop oom h1 h2

/-- Where a piece can come to a wait. -/
theorem wait_piece {l l' : PipeLocal} {stop oom : Bool} {c : CondVar}
    (hn : ((pipeline ρ o).exec l p stop oom).next = .wait c l') :
    (c = .dataAvailable ∧ ∃ minSize token, l' = .readAfterWait minSize token) ∨
      c = .spaceAvailable ∧ ∃ call data copied token, l' = .writeLoop call data copied false token := by
  have hm := pipe_moves o l p stop oom
  generalize (pipeline ρ o).exec l p stop oom = r at hm hn
  cases hm with
  | topWait => cases hn; exact .inr ⟨rfl, _, _, _, _, rfl⟩
  | readWait => cases hn; exact .inl ⟨rfl, _, _, rfl⟩
  | leave => cases hn
  | pause => cases hn
  | readNow => rw [readTail_next] at hn; cases hn
  | readAfter => rw [readTail_next] at hn; cases hn
  | _ => cases hn

theorem waits_of_exec {ok : PipeState τ ρ π → PipeAction τ → Prop}
    (h : ((pipeline ρ o).machine τ).Exec ok (State.init (Pipe.new m)) tr s) {t : τ} {c : CondVar}
    {l : PipeLocal} (ht : (s.phase t).wait? = some (c, l)) :
    (c = .dataAvailable ∧ ∃ minSize token, l = .readAfterWait minSize token) ∨
      c = .spaceAvailable ∧ ∃ call data copied token, l = .writeLoop call data copied false token :=
  Monitor.wait_invariant (W := fun c l => (c = .dataAvailable ∧ ∃ minSize token, l = .readAfterWait minSize token) ∨
    c = .spaceAvailable ∧ ∃ call data copied token, l = .writeLoop call data copied false token) h
    (fun _ _ _ _ _ _ hn => wait_piece hn) ht

/-- A thread asleep is the reader in its wait or the writer in its wait. -/
theorem asleep_cases
    (h : ((pipeline ρ o).machine τ).Exec (Notifies o w r) (State.init (Pipe.new m)) tr s) {u : τ} {c : CondVar}
    {l : PipeLocal} (hu : s.phase u = .asleep c l) :
    (c = .dataAvailable ∧ u = r ∧ s.shared.readerWaiting = true ∧ s.shared.hasPendingRead = false ∧
      ∃ minSize token, l = .readAfterWait minSize token) ∨
    (c = .spaceAvailable ∧ u = w ∧ ∃ call data copied token, l = .writeLoop call data copied false token) := by
  have hA := placed_of_exec h u l (by rw [hu]; rfl)
  rcases waits_of_exec h (t := u) (by rw [hu]; rfl) with ⟨rfl, minSize, token, rfl⟩ | ⟨rfl, call, data, copied, token, rfl⟩
  · obtain ⟨h1, h2⟩ := hA.waiting rfl
    exact .inl ⟨rfl, hA.reader rfl, h1, h2, minSize, token, rfl⟩
  · exact .inr ⟨rfl, hA.writer rfl, call, data, copied, token, rfl⟩

/-- A write has its flag set only while it holds the lock, and nobody is completed then. -/
private theorem owes_of_exec
    (h : ((pipeline ρ o).machine τ).Exec (Notifies o w r) (State.init (Pipe.new m)) tr s) {t : τ} {l : PipeLocal}
    (ht : s.phase t = .locked l) (hl : l.owes = true) : s.shared.isAnyCompleted = false := by
  have hno : ∀ l p stop oom l', (∀ l'', ((pipeline ρ o).exec l p stop oom).next ≠ .hold l'') →
      ((pipeline ρ o).exec l p stop oom).next.local? = some l' → l'.owes = false := by
    intro l p stop oom l' hne hl'
    have hm := pipe_moves o l p stop oom
    generalize (pipeline ρ o).exec l p stop oom = r at hm hl' hne
    cases hm with
    | leave => rw [writeUnlock_local hl']; rfl
    | pause => rw [writeUnlock_local hl']; rfl
    | topWait => cases hl'; rfl
    | readWait => cases hl'; rfl
    | chunk => exact absurd rfl (hne _)
    | readNow => cases (readTail_local _ _).symm.trans hl'
    | readAfter => cases (readTail_local _ _).symm.trans hl'
    | _ => cases hl'
  refine Monitor.held_invariant (H := fun (l : PipeLocal) _ (p : Pipe ρ π) => l.owes = true → p.isAnyCompleted = false)
    (R := fun l => l.owes = false) (W := fun _ l => l.owes = false) h (fun _ _ h => h) ?_ ?_ ?_ ?_ ?_ ?_ ht hl
  · intro l b p h h'
    rw [h] at h'
    cases h'
  · intro c l b p h _ h'
    rw [h] at h'
    cases h'
  · intro op n l he
    obtain ⟨evs, hen⟩ := pipe_enters_of_some he
    cases hen <;> rfl
  · intro l p b oom ns l' hn
    exact hno l p b oom l' (by simp [hn]) (by rw [hn]; rfl)
  · intro l p b oom c l' hn
    exact hno l p b oom l' (by simp [hn]) (by rw [hn]; rfl)
  · intro l p b oom l' _ hn
    have hm := pipe_moves o l p b oom
    generalize (pipeline ρ o).exec l p b oom = r at hm hn ⊢
    cases hm with
    | chunk q n _ _ hc _ hq =>
      obtain ⟨_, _, _, _, rfl⟩ := copyChunk_frame hq
      cases hn
      exact ⟨rfl, fun _ => hc⟩
    | readNow => rw [readTail_next] at hn; cases hn
    | readAfter => rw [readTail_next] at hn; cases hn
    | _ => cases hn

/-! ### Every piece pays -/

/-- A thread asleep needs a wake-up if its predicate holds. -/
def pipeNeed (ρ : Type) {π : Type} [MemoryResource ρ π] (o : ValidatedOptions) (c : CondVar) (l : PipeLocal)
    (p : Pipe ρ π) : Nat :=
  ((pipeline ρ o).pred c l p).toNat

omit [MemoryResource ρ π] in
private theorem count_one (notify : Bool) (c : CondVar) :
    (if notify then [Notification.one c] else []).count (.one c) = notify.toNat := by
  cases notify <;> simp

omit [MemoryResource ρ π] in
/-- What `write` answers for after its inner loop is what its flag stands for. -/
private theorem credit_writeUnlock (p : Pipe ρ π) (call : Nat) (data : List Byte) (copied : Nat) (notify : Bool)
    (token : Option Nat) (stop : Bool) (asked : PipeLocal → Bool) :
    (p.writeUnlock call data copied notify token stop).next.credit PipeLocal.worth asked .dataAvailable =
      notify.toNat := by
  rcases writeUnlock_cases p call data copied notify token stop with ⟨-, he⟩ | ⟨-, he⟩ <;> rw [he]
  · simp [Next.credit, After.credit, count_one]
  · simp [Next.credit, After.credit, count_one, PipeLocal.worth]

/-- A piece of another operation pays for the wake-up of the reader `u` asleep. -/
private theorem pays_reader
    (h : ((pipeline ρ o).machine τ).Exec (Notifies o w r) (State.init (Pipe.new m)) tr s) {t u : τ} {oom : Bool}
    {l : PipeLocal} (hok : Notifies o w r s (.run t oom)) (hl : s.phase t = .locked l) {minSize : Nat}
    {token : Option Nat} (hu : s.phase u = .asleep .dataAvailable (.readAfterWait minSize token))
    (hread : l.isRead = false) (hwait : s.shared.readerWaiting = true) (hpend : s.shared.hasPendingRead = false) :
    let piece := (pipeline ρ o).piece s l oom
    piece.next.sendsAll .dataAvailable ∨
      (piece.shared.dataAvailable minSize).toNat ≤
        piece.next.credit PipeLocal.worth ((pipeline ρ o).asked s) .dataAvailable ∨
      (piece.shared.dataAvailable minSize).toNat + PipeLocal.worth .dataAvailable l ((pipeline ρ o).asked s l) ≤
        (s.shared.dataAvailable minSize).toNat +
          piece.next.credit PipeLocal.worth ((pipeline ρ o).asked s) .dataAvailable := by
  have howes := owes_of_exec h hl
  have hkeep := hok.2 t oom
  have hm := pipe_moves o l s.shared (s.stop l.token) oom
  generalize (pipeline ρ o).asked s = asked
  dsimp only
  change PipeMoves o s.shared l _ oom ((pipeline ρ o).piece s l oom) at hm
  generalize (pipeline ρ o).piece s l oom = r at hm ⊢
  generalize hstop : s.stop l.token = stop at hm
  cases hm with
  | topThrow => exact .inr (.inr (Nat.le_refl _))
  | topWait => exact .inr (.inr (Nat.le_refl _))
  | leave => exact .inr (.inr (by rw [credit_writeUnlock]; exact Nat.le_refl _))
  | @loopThrow _ _ _ notify _ _ _ _ _ hc =>
    cases notify with
    | false => exact .inr (.inr (Nat.le_refl _))
    | true => rw [howes rfl] at hc; cases hc
  | @loopStop _ _ _ notify _ _ hd hp _ =>
    cases notify with
    | false => exact .inr (.inr (Nat.le_refl _))
    | true =>
      have hno := hkeep _ _ _ _ rfl hl hd hp (.inl hstop) u minSize token hu
      exact .inr (.inl (by rw [hno]; exact Nat.zero_le _))
  | pause => exact .inr (.inr (by rw [credit_writeUnlock]; exact Nat.le_refl _))
  | @loopOom _ _ _ notify _ _ hd hp _ ha hq =>
    cases notify with
    | false => exact .inr (.inr (Nat.le_refl _))
    | true =>
      have hno := hkeep _ _ _ _ rfl hl hd hp (.inr ⟨ha, hq⟩) u minSize token hu
      exact .inr (.inl (by rw [hno]; exact Nat.zero_le _))
  | chunk q n _ _ _ _ hq =>
    obtain ⟨_, _, _, _, rfl⟩ := copyChunk_frame hq
    refine .inr (.inl ?_)
    simp only [hwait, Bool.or_true, Next.credit]
    exact Bool.toNat_le _
  | readThrow => cases hread
  | readWait => cases hread
  | readNow => cases hread
  | readAfter => cases hread
  | advanceThrow => exact .inr (.inr (Nat.le_refl _))
  | advanceFault _ _ hp => rw [hpend] at hp; cases hp
  | advance _ _ _ hp => rw [hpend] at hp; cases hp
  | completeWriter => exact .inl (by simp [Pipe.completeWriter, Next.sendsAll])
  | completeReader => exact .inl (by simp [Pipe.completeReader, Next.sendsAll])

omit [DecidableEq τ] [Fintype τ] in
/-- A piece of another operation pays for the wake-up of a writer asleep. -/
private theorem pays_writer (s : PipeState τ ρ π) {oom : Bool} {l : PipeLocal} (hwrite : l.isWrite = false) :
    let piece := (pipeline ρ o).piece s l oom
    piece.next.sendsAll .spaceAvailable ∨
      piece.shared.spaceAvailable.toNat ≤
        piece.next.credit PipeLocal.worth ((pipeline ρ o).asked s) .spaceAvailable ∨
      piece.shared.spaceAvailable.toNat + PipeLocal.worth .spaceAvailable l ((pipeline ρ o).asked s l) ≤
        s.shared.spaceAvailable.toNat +
          piece.next.credit PipeLocal.worth ((pipeline ρ o).asked s) .spaceAvailable := by
  have hm := pipe_moves o l s.shared (s.stop l.token) oom
  generalize (pipeline ρ o).asked s = asked
  dsimp only
  change PipeMoves o s.shared l _ oom ((pipeline ρ o).piece s l oom) at hm
  generalize (pipeline ρ o).piece s l oom = r at hm ⊢
  generalize s.stop l.token = stop at hm
  cases hm with
  | topThrow => cases hwrite
  | topWait => cases hwrite
  | leave => cases hwrite
  | loopThrow => cases hwrite
  | loopStop => cases hwrite
  | pause => cases hwrite
  | loopOom => cases hwrite
  | chunk => cases hwrite
  | readNow =>
    rcases readTail_cases s.shared stop with ⟨-, he⟩ | ⟨-, he⟩ <;> rw [he] <;> exact .inr (.inr (Nat.le_refl _))
  | readAfter =>
    rcases readTail_cases { s.shared with readerWaiting := false } stop with ⟨-, he⟩ | ⟨-, he⟩ <;> rw [he] <;>
      exact .inr (.inr (Nat.le_refl _))
  | advance q paused _ _ _ _ hq hpa =>
    -- the writer is notified exactly if it is resumed
    subst hq hpa
    cases hp : s.shared.writerPaused with
    | false => exact .inr (.inr (by simp [Pipe.spaceAvailable, hp, Next.credit, After.credit, PipeLocal.worth]))
    | true =>
      refine .inr (.inl ?_)
      cases Pipe.shouldResumeWriter o _ with
      | false => simp [Pipe.spaceAvailable]
      | true => simp [Pipe.spaceAvailable, Next.credit, After.credit]
  | completeWriter => exact .inl (by simp [Pipe.completeWriter, Next.sendsAll])
  | completeReader => exact .inl (by simp [Pipe.completeReader, Next.sendsAll])
  | _ => exact .inr (.inr (Nat.le_refl _))

theorem pipeline_pays (o : ValidatedOptions) (m : ρ) (w r : τ) :
    (pipeline ρ o).Pays (Notifies o w r) (Pipe.new m) (pipeNeed ρ o) PipeLocal.worth where
  piece tr s h t oom l hok hl u c l' hu := by
    have hA := placed_of_exec h t l (Monitor.local?_of_locked hl)
    have htu : t ≠ u := by
      rintro rfl
      rw [hl] at hu
      cases hu
    rcases asleep_cases h hu with ⟨rfl, hur, h1, h2, minSize, token, rfl⟩ | ⟨rfl, huw, call, data, copied, token, rfl⟩
    · refine pays_reader h hok hl hu ?_ h1 h2
      cases hr : l.isRead with
      | false => rfl
      | true => exact absurd ((hA.reader hr).trans hur.symm) htu
    · refine pays_writer s ?_
      cases hw : l.isWrite with
      | false => rfl
      | true => exact absurd ((hA.writer hw).trans huw.symm) htu
  sleep tr s h t c l ht hp := by
    refine ⟨by simp [pipeNeed, hp], ?_⟩
    intro u c' l' hu
    have htu : t ≠ u := by
      rintro rfl
      rw [ht] at hu
      cases hu
    have hA := placed_of_exec h t l (by rw [ht]; rfl)
    rcases waits_of_exec h (t := t) (by rw [ht]; rfl) with ⟨rfl, _, _, rfl⟩ | ⟨rfl, _, _, _, _, rfl⟩ <;>
      rcases asleep_cases h hu with ⟨rfl, hur, -⟩ | ⟨rfl, huw, -⟩
    · exact absurd ((hA.reader rfl).trans hur.symm) htu
    · exact .inr rfl
    · exact .inr rfl
    · exact absurd ((hA.writer rfl).trans huw.symm) htu
  wake tr s h t c l ht := by
    rcases asleep_cases h ht with ⟨rfl, -, -, -, _, _, rfl⟩ | ⟨rfl, -, _, _, _, _, rfl⟩ <;> exact Nat.le_refl _
  stop _ _ _ _ _ _ _ _ _ _ _ _ _ _ _ _ := Nat.le_refl _

/-- In every run of one writer and one reader in which no notification is dropped, once nobody is active a reader asleep
lacks data and a writer asleep is paused. -/
theorem no_lost_wakeup
    (h : ((pipeline ρ o).machine τ).Exec (Notifies o w r) (State.init (Pipe.new m)) tr s) (hq : s.Quiescent) :
    (∀ t minSize token, s.phase t = .asleep .dataAvailable (.readAfterWait minSize token) →
      s.shared.dataAvailable minSize = false) ∧
    ∀ t l, s.phase t = .asleep .spaceAvailable l → s.shared.writerPaused = true := by
  constructor
  · intro t minSize token ht
    have h0 := (pipeline_pays o m w r).need_eq_zero h hq ht
    simpa [pipeNeed, pipeline, PipeLocal.minSize] using h0
  · intro t l ht
    have h0 := (pipeline_pays o m w r).need_eq_zero h hq ht
    simpa [pipeNeed, pipeline, Pipe.spaceAvailable] using h0

private def notifies (s : PipeState (Fin 2) ρ π) : PipeAction (Fin 2) → Bool
  | .call t (.write _ _) => decide (t = 0)
  | .call t (.readAtLeast _ _) => decide (t = 1)
  | .run t _ =>
    match s.phase t with
    | .locked (.writeLoop _ data _ true _) => data.isEmpty
    | _ => true
  | _ => true

private theorem notifies_sound (o : ValidatedOptions) (s : PipeState (Fin 2) ρ π) (a : PipeAction (Fin 2))
    (h : notifies s a = true) : Notifies o 0 1 s a := by
  refine ⟨⟨?_, ?_⟩, ?_⟩
  · rintro t data token rfl
    exact of_decide_eq_true h
  · rintro t minSize token rfl
    exact of_decide_eq_true h
  · rintro t oom call data copied token rfl hl hd
    simp only [notifies, hl, List.isEmpty_iff] at h
    exact absurd h hd

/-- Thread `1` waits for three bytes, thread `0` writes two: thread `1` is woken and sleeps again. -/
def writeTooLittle : List (PipeAction (Fin 2)) :=
  [.call 1 (.readAtLeast 3 none), .run 1 false, .run 1 false, .run 1 false,
    .call 0 (.write ⟨[1, 2], by decide⟩ none), .run 0 false, .run 0 false, .run 0 false, .run 0 false, .run 0 false,
    .notify 0 (some 1), .run 1 false, .run 1 false]

private def isAsleepReading (minSize : Nat) : Phase PipeLocal CondVar PipeEvent → Bool
  | .asleep .dataAvailable (.readAfterWait n _) => decide (n = minSize)
  | _ => false

private theorem eq_of_isAsleepReading {minSize : Nat} {ph : Phase PipeLocal CondVar PipeEvent}
    (h : isAsleepReading minSize ph = true) : ∃ token, ph = .asleep .dataAvailable (.readAfterWait minSize token) := by
  unfold isAsleepReading at h
  split at h
  · rename_i n token
    exact ⟨token, by rw [of_decide_eq_true h]⟩
  · cases h

theorem no_lost_wakeup_writeTooLittle :
    ∃ tr, ∃ s : PipeState (Fin 2) FixedPoolResource Nat,
      ((pipeline FixedPoolResource .small).machine (Fin 2)).Exec (Notifies .small 0 1)
        (State.init (Pipe.new (.make .small))) tr s ∧
      s.Quiescent ∧ s.shared.bufferedSize = 2 ∧ s.shared.dataAvailable 3 = false := by
  obtain ⟨tr, s, h, hc⟩ := Machine.exists_exec_of_run ((pipeline FixedPoolResource .small).machine (Fin 2))
    (Notifies .small 0 1) (State.init (Pipe.new (.make .small))) notifies writeTooLittle
    (fun _ s => decide s.Quiescent && isAsleepReading 3 (s.phase 1) && decide (s.shared.bufferedSize = 2))
    (notifies_sound .small) (by decide)
  simp only [Bool.and_eq_true, decide_eq_true_eq] at hc
  obtain ⟨⟨hq, h1⟩, hb⟩ := hc
  obtain ⟨token, hp⟩ := eq_of_isAsleepReading h1
  exact ⟨tr, s, h, hq, hb, (no_lost_wakeup h hq).1 1 3 token hp⟩

/-- Thread `1` waits for data; thread `0` writes a segment and a byte, and is stopped after the first chunk. -/
def stopBetweenChunks : List (PipeAction (Fin 2)) :=
  [.call 1 (.readAtLeast 0 none), .run 1 false, .run 1 false, .run 1 false,
    .call 0 (.write .oneToThree (some 7)), .run 0 false, .run 0 false, .run 0 false, .run 0 false,
    .requestStop 7, .run 0 false]

private def isOneWriterOneReader : PipeAction (Fin 2) → Bool
  | .call t (.write _ _) => decide (t = 0)
  | .call t (.readAtLeast _ _) => decide (t = 1)
  | _ => true

/-- A stop between two chunks of a write drops the notification: the reader stays asleep although there is data. -/
theorem wakeup_lost_stopBetweenChunks :
    ∃ tr, ∃ s : PipeState (Fin 2) FixedPoolResource Nat, ∃ token,
      ((pipeline FixedPoolResource .small).machine (Fin 2)).Exec (OneWriterOneReader 0 1)
        (State.init (Pipe.new (.make .small))) tr s ∧
      s.Quiescent ∧ s.phase 1 = .asleep .dataAvailable (.readAfterWait 0 token) ∧ s.shared.dataAvailable 0 = true := by
  obtain ⟨tr, s, h, hc⟩ := Machine.exists_exec_of_run ((pipeline FixedPoolResource .small).machine (Fin 2))
    (OneWriterOneReader 0 1) (State.init (Pipe.new (.make .small)))
    (fun _ => isOneWriterOneReader) stopBetweenChunks
    (fun _ s => decide s.Quiescent && isAsleepReading 0 (s.phase 1) && s.shared.dataAvailable 0)
    (by
      intro s a ha
      constructor
      · rintro t data token rfl
        exact of_decide_eq_true ha
      · rintro t minSize token rfl
        exact of_decide_eq_true ha) (by decide)
  simp only [Bool.and_eq_true, decide_eq_true_eq] at hc
  obtain ⟨⟨hq, h1⟩, hd⟩ := hc
  obtain ⟨token, hp⟩ := eq_of_isAsleepReading h1
  exact ⟨tr, s, token, h, hq, hp, hd⟩

/-! ### The wake-up of the writer -/

private theorem writer_of_exec (h : ((pipeline ρ o).machine τ).Exec (OneWriter w) (State.init (Pipe.new m)) tr s)
    {t : τ} {l : PipeLocal} (hl : (s.phase t).local? = some l) (hw : l.isWrite = true) : t = w := by
  refine (Monitor.thread_invariant (P := fun _ => True) (A := fun t l _ => l.isWrite = true → t = w) h trivial ?_ ?_).2
    t l hl hw
  · intro s t op l hok _ he hw
    obtain ⟨evs, hen⟩ := pipe_enters_of_some he
    cases hen with
    | write data token _ => exact hok t data token rfl
    | _ => cases hw
  · intro t l p stop oom _ hl
    exact ⟨trivial, fun l' hn hw => hl ((next_placed hn).1 hw), fun _ _ _ h => h⟩

/-- Whoever reads, the writer is woken when it is resumed. -/
def writerNeed (ρ : Type) {π : Type} [MemoryResource ρ π] (o : ValidatedOptions) (c : CondVar) (l : PipeLocal)
    (p : Pipe ρ π) : Nat :=
  if c = .spaceAvailable then pipeNeed ρ o c l p else 0

theorem writer_pays (o : ValidatedOptions) (m : ρ) (w : τ) :
    (pipeline ρ o).Pays (OneWriter w) (Pipe.new m) (writerNeed ρ o) PipeLocal.worth where
  piece tr s h t oom l _ hl u c l' hu := by
    rcases waits_of_exec h (t := u) (by rw [hu]; rfl) with ⟨rfl, -⟩ | ⟨rfl, call, data, copied, token, rfl⟩
    · exact .inr (.inl (Nat.zero_le _))
    · refine pays_writer s ?_
      cases hw : l.isWrite with
      | false => rfl
      | true =>
        have htw : t = w := writer_of_exec h (Monitor.local?_of_locked hl) hw
        have huw : u = w := writer_of_exec h (by rw [hu]; rfl) rfl
        rw [htw.trans huw.symm, hu] at hl
        cases hl
  sleep tr s h t c l ht hp := by
    constructor
    · unfold writerNeed pipeNeed
      rw [hp]
      split <;> rfl
    · intro u c' l' hu
      rcases waits_of_exec h (t := u) (by rw [hu]; rfl) with ⟨rfl, -⟩ | ⟨rfl, call, data, copied, token, rfl⟩
      · exact .inl rfl
      · rcases waits_of_exec h (t := t) (by rw [ht]; rfl) with ⟨rfl, _, _, rfl⟩ | ⟨rfl, _, _, _, _, rfl⟩
        · exact .inr rfl
        · have htw : t = w := writer_of_exec h (by rw [ht]; rfl) rfl
          have huw : u = w := writer_of_exec h (by rw [hu]; rfl) rfl
          rw [htw.trans huw.symm, hu] at ht
          cases ht
  wake tr s h t c l ht := by
    rcases waits_of_exec h (t := t) (by rw [ht]; rfl) with ⟨rfl, _, _, rfl⟩ | ⟨rfl, _, _, _, _, rfl⟩ <;> exact Nat.le_refl _
  stop _ _ _ _ _ _ _ _ _ _ _ _ _ _ _ _ := Nat.le_refl _

/-- Once nobody is active the only writer, if it is asleep, is paused. -/
theorem paused_of_asleep (h : ((pipeline ρ o).machine τ).Exec (OneWriter w) (State.init (Pipe.new m)) tr s)
    (hq : s.Quiescent) {t : τ} {l : PipeLocal} (ht : s.phase t = .asleep .spaceAvailable l) :
    s.shared.writerPaused = true := by
  have h0 := (writer_pays o m w).need_eq_zero h hq ht
  simpa [writerNeed, pipeNeed, pipeline, Pipe.spaceAvailable] using h0

end Xtd
