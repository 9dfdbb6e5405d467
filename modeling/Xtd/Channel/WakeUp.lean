import Xtd.Concurrency.WakeUp
import Xtd.Channel.Pieces

/-!
# Wake-ups of the channel

An insertion wakes one reader and a removal wakes one writer.  The call that is woken asks its stop token once more after
its wait; if a stop request has come in the meantime, it gives up and passes its wake-up on to nobody.  In runs in which
no stop request comes to a call at this point while another one is asleep, every value in the queue has a reader that is
awake or will be woken, and every free place a writer.  `wait_to_read` drops wake-ups too: it is woken for a value that
it does not take.
-/

namespace Xtd

open Concurrency

variable {α τ : Type} [DecidableEq τ] [Fintype τ] {capacity : Nat} {c : Channel α}

/-- `wait_to_read` is not used: it is woken for a value and takes none. -/
def NoWaitToRead (_ : ChannelState τ α) (a : ChannelAction τ α) : Prop :=
  ∀ t token, a ≠ .call t (.waitToRead token)

/-- No stop request comes to a call between its wait and the second question to its stop token while another call is
asleep on the same condition variable, as long as the writer is not completed. -/
def KeepsWakeUp (s : ChannelState τ α) (a : ChannelAction τ α) : Prop :=
  ∀ k cv t l u l', a = .requestStop k → s.stopped k = false → s.phase t = .locked l → l.Waits cv → l.token = some k →
    s.phase u = .asleep cv l' → s.shared.writerCompleted = true

/-- The runs without `wait_to_read` in which no wake-up is dropped. -/
def PassesOn (s : ChannelState τ α) (a : ChannelAction τ α) : Prop := NoWaitToRead s a ∧ KeepsWakeUp s a

/-- The stop token an operation is called with. -/
def ChannelOp.token : ChannelOp α → Option Nat
  | emplace _ _ token | read _ token | readAll token | waitToRead token => token
  | completeWriter | size => none

/-- Nobody gives a stop token to a call. -/
def NoStopTokens (_ : ChannelState τ α) (a : ChannelAction τ α) : Prop := ∀ t op, a = .call t op → op.token = none

/-- `wait_to_read` does not leave its wait in front of a value while another call is asleep for one, as long as the writer
is not completed. -/
def KeepsValueWakeUp (s : ChannelState τ α) (a : ChannelAction τ α) : Prop :=
  ∀ t seen call token u l', a = .run t seen → s.phase t = .locked (.readAfterWait call .waitToRead token) →
    s.shared.queue ≠ [] → s.phase u = .asleep .notEmpty l' → s.shared.writerCompleted = true

/-- How many calls asleep on `cv` could go on: a reader for each value, a writer for each free place. -/
def channelNeed (capacity : Nat) (cv : ChannelCv) (_ : ChannelLocal α) (c : Channel α) : Nat :=
  if c.writerCompleted then 0
  else
    match cv with
    | .notEmpty => c.queue.length
    | .notFull => capacity - c.queue.length

namespace ChannelLocal

/-- A call in or behind its wait answers for its own wake-up, unless it is stopped. -/
def worth (cv : ChannelCv) (l : ChannelLocal α) (stop : Bool) : Nat :=
  match cv, l with
  | .notEmpty, readAfterWait _ _ _ | .notFull, emplaceAfterWait _ _ _ => (!stop).toNat
  | _, _ => 0

def readWeight : ChannelLocal α → Nat
  | readAfterWait _ _ _ => 1
  | _ => 0

def writeWeight : ChannelLocal α → Nat
  | emplaceAfterWait _ _ _ => 1
  | _ => 0

/-- What holds of every call in a run without `wait_to_read`: only a channel with a capacity lets writers wait. -/
def Takes (capacity : Nat) : ChannelLocal α → Prop
  | readTop _ kind _ | readAfterWait _ kind _ | readCheck _ kind _ => kind ≠ .waitToRead
  | emplaceAfterWait _ _ _ => 0 < capacity
  | _ => True

end ChannelLocal

/-! ### Who waits -/

private theorem EmplaceAt.waiters {l : ChannelLocal α} {call : Nat} {value : α} {c' : Channel α}
    (h : EmplaceAt c l call value c') :
    c'.readWaiters = c.readWaiters ∧ l.readWeight = 0 ∧
      (l.writeWeight ≤ c.writeWaiters → c'.writeWaiters + l.writeWeight = c.writeWaiters) := by
  cases h with
  | attempt => exact ⟨rfl, rfl, fun _ => rfl⟩
  | check => exact ⟨rfl, rfl, fun _ => rfl⟩
  | afterWait => exact ⟨rfl, rfl, fun h => Nat.sub_add_cancel h⟩

private theorem ReadAt.waiters {l : ChannelLocal α} {call : Nat} {kind : Reading} {token : Option Nat} {c' : Channel α}
    (h : ReadAt c l call kind token c') :
    c'.writeWaiters = c.writeWaiters ∧ l.writeWeight = 0 ∧
      (l.readWeight ≤ c.readWaiters → c'.readWaiters + l.readWeight = c.readWaiters) := by
  cases h with
  | check => exact ⟨rfl, rfl, fun _ => rfl⟩
  | afterWait => exact ⟨rfl, rfl, fun h => Nat.sub_add_cancel h⟩

/-- The waiter counts follow the calls in and behind their waits. -/
private theorem waiters_piece (l : ChannelLocal α) (c : Channel α) (stop seen : Bool) :
    let r := (channel α capacity).exec l c stop seen
    (l.readWeight ≤ c.readWaiters →
      r.shared.readWaiters + l.readWeight = c.readWaiters + r.next.local?.elim 0 ChannelLocal.readWeight) ∧
    (l.writeWeight ≤ c.writeWaiters →
      r.shared.writeWaiters + l.writeWeight = c.writeWaiters + r.next.local?.elim 0 ChannelLocal.writeWeight) := by
  have hm := channel_moves capacity l c stop seen
  dsimp only
  generalize (channel α capacity).exec l c stop seen = r at hm ⊢
  have fails : ∀ {call kind token c' error}, ReadAt c l call kind token c' →
      (l.readWeight ≤ c.readWaiters → (c'.readFails call kind error).shared.readWaiters + l.readWeight =
        c.readWaiters + (c'.readFails call kind error).next.local?.elim 0 ChannelLocal.readWeight) ∧
      (l.writeWeight ≤ c.writeWaiters → (c'.readFails call kind error).shared.writeWaiters + l.writeWeight =
        c.writeWaiters + (c'.readFails call kind error).next.local?.elim 0 ChannelLocal.writeWeight) := by
    intro call kind token c' error hl
    obtain ⟨h1, h2, h3⟩ := hl.waiters
    obtain ⟨e, he, -⟩ := readFails_cases c' call kind error
    rw [he, h2]
    exact ⟨h3, fun _ => h1⟩
  cases hm with
  | emplaceFail hl h =>
    obtain ⟨h1, h2, h3⟩ := hl.waiters
    rw [h2]
    exact ⟨fun _ => h1, h3⟩
  | insert hl hc hf =>
    obtain ⟨h1, h2, h3⟩ := hl.waiters
    rw [h2]
    exact ⟨fun _ => h1, h3⟩
  | readCancelled hl => exact fails hl
  | readEmpty hl hq => exact fails hl
  | take hl hq hk =>
    obtain ⟨h1, h2, h3⟩ := hl.waiters
    rw [h2]
    cases hk <;> exact ⟨h3, fun _ => h1⟩
  | mayRead hl =>
    obtain ⟨h1, h2, h3⟩ := hl.waiters
    rw [h2]
    exact ⟨h3, fun _ => h1⟩
  | _ => exact ⟨fun _ => rfl, fun _ => rfl⟩

section Waiters

variable {ok : ChannelState τ α → ChannelAction τ α → Prop} {tr : List (ChannelEvent α)} {s : ChannelState τ α}
  {t : τ} {cv : ChannelCv} {l : ChannelLocal α}

private theorem channelWaits_of_exec (h : ((channel α capacity).machine τ).Exec ok (State.init .new) tr s)
    (ht : (s.phase t).wait? = some (cv, l)) : l.Waits cv :=
  Monitor.wait_invariant h (fun l _ stop seen => channel_wait l stop seen) ht

/-- A call asleep is counted. -/
private theorem waiters_of_asleep (h : ((channel α capacity).machine τ).Exec ok (State.init .new) tr s)
    (ht : s.phase t = .asleep cv l) :
    match cv with
    | .notEmpty => s.shared.readWaiters ≠ 0
    | .notFull => s.shared.writeWaiters ≠ 0 := by
  have hl : (s.phase t).local? = some l := by rw [ht]; rfl
  cases channelWaits_of_exec h (t := t) (by rw [ht]; rfl) with
  | notFull call value token =>
    have hsum := Monitor.sum_invariant (f := Channel.writeWaiters) (w := ChannelLocal.writeWeight) h rfl
      (fun op n l hl => by cases (channel_enter op n l hl).1 <;> rfl)
      (fun l c stop seen => (waiters_piece l c stop seen).2)
    have hle := Finset.single_le_sum_of_canonicallyOrdered (f := fun u => (s.phase u).local?.elim 0 ChannelLocal.writeWeight)
      (Finset.mem_univ t)
    rw [← hsum, hl] at hle
    exact Nat.ne_of_gt hle
  | notEmpty call kind token =>
    have hsum := Monitor.sum_invariant (f := Channel.readWaiters) (w := ChannelLocal.readWeight) h rfl
      (fun op n l hl => by cases (channel_enter op n l hl).1 <;> rfl)
      (fun l c stop seen => (waiters_piece l c stop seen).1)
    have hle := Finset.single_le_sum_of_canonicallyOrdered (f := fun u => (s.phase u).local?.elim 0 ChannelLocal.readWeight)
      (Finset.mem_univ t)
    rw [← hsum, hl] at hle
    exact Nat.ne_of_gt hle

/-- A call that comes to the lock is not behind a wait. -/
private theorem starts_of_exec (h : ((channel α capacity).machine τ).Exec ok (State.init .new) tr s)
    (ht : (s.phase t).turn? = some l) : l.Starts :=
  Monitor.turn_invariant h (fun op n l hl => (channel_enter op n l hl).1)
    (fun l _ stop seen => channel_again l stop seen) ht

end Waiters

variable {tr : List (ChannelEvent α)} {s : ChannelState τ α}

private theorem takes_of_exec (h : ((channel α capacity).machine τ).Exec PassesOn (State.init .new) tr s) :
    ∀ t l, (s.phase t).local? = some l → l.Takes capacity := by
  refine (Monitor.shared_invariant (P := fun _ => True) (Q := ChannelLocal.Takes capacity) h trivial ?_ ?_).2
  · intro s t op l hok hl
    cases hl
    cases op with
    | read strategy token =>
      cases strategy with
      | WAIT =>
        intro h
        cases h
      | TRY => trivial
    | waitToRead token => exact absurd rfl (hok.1 t token)
    | _ => trivial
  · intro l c stop seen _ hl
    refine ⟨trivial, ?_⟩
    intro l' hn
    have hm := channel_moves capacity l c stop seen
    generalize (channel α capacity).exec l c stop seen = r at hm hn
    cases hm with
    | emplaceWait call value token hc hf =>
      cases hn
      simp only [Channel.full, Bool.and_eq_true, decide_eq_true_eq] at hf
      exact hf.1
    | emplaceGo => cases hn; trivial
    | readAllGo =>
      cases hn
      intro h
      cases h
    | readWait => cases hn; exact hl
    | readGo => cases hn; exact hl
    | readCancelled => obtain ⟨e, he, -⟩ := readFails_cases _ _ _ _; rw [he] at hn; cases hn
    | readEmpty => obtain ⟨e, he, -⟩ := readFails_cases _ _ _ _; rw [he] at hn; cases hn
    | take hl' hq hk =>
      cases hk with
      | read => cases hn
      | readAll => cases hn; trivial
    | _ => cases hn

/-! ### Every piece pays -/

private theorem channelNeed_congr {c' : Channel α} (hq : c'.queue = c.queue)
    (hw : c'.writerCompleted = c.writerCompleted) (cv : ChannelCv) (l : ChannelLocal α) :
    channelNeed capacity cv l c' = channelNeed capacity cv l c := by
  simp [channelNeed, hq, hw]

private theorem worth_le (cv : ChannelCv) (l : ChannelLocal α) (stop : Bool) : l.worth cv stop ≤ 1 := by
  unfold ChannelLocal.worth
  split <;> first | exact Bool.toNat_le _ | exact Nat.zero_le _

private theorem EmplaceAt.worth_notEmpty {l : ChannelLocal α} {call : Nat} {value : α} {c' : Channel α}
    (h : EmplaceAt c l call value c') (stop : Bool) : l.worth .notEmpty stop = 0 := by
  cases h <;> rfl

private theorem ReadAt.worth_notFull {l : ChannelLocal α} {call : Nat} {kind : Reading} {token : Option Nat}
    {c' : Channel α} (h : ReadAt c l call kind token c') (stop : Bool) : l.worth .notFull stop = 0 := by
  cases h <;> rfl

private theorem waits_of_worth {cv : ChannelCv} {l : ChannelLocal α} {stop : Bool} (h : l.worth cv stop ≠ 0) :
    l.Waits cv := by
  unfold ChannelLocal.worth at h
  split at h
  · exact .notEmpty _ _ _
  · exact .notFull _ _ _
  · exact absurd rfl h

private theorem worth_stopped (cv : ChannelCv) (l : ChannelLocal α) : l.worth cv true = 0 := by
  unfold ChannelLocal.worth
  split <;> rfl

/-- The wake-ups on `cv` that the piece `r` of a call at `l` makes necessary are paid for. -/
private def PaysFor (capacity : Nat) (c : Channel α) (cv : ChannelCv) (l l' : ChannelLocal α)
    (asked : ChannelLocal α → Bool) (r : ChannelPiece α) : Prop :=
  r.next.sendsAll cv ∨ channelNeed capacity cv l' r.shared ≤ r.next.credit ChannelLocal.worth asked cv ∨
    channelNeed capacity cv l' r.shared + l.worth cv (asked l) ≤
      channelNeed capacity cv l' c + r.next.credit ChannelLocal.worth asked cv

/-- A piece that leaves the queue and gives up no wake-up pays. -/
private theorem PaysFor.still {cv : ChannelCv} {l l' : ChannelLocal α} {asked : ChannelLocal α → Bool}
    {r : ChannelPiece α} (hq : r.shared.queue = c.queue) (hw : r.shared.writerCompleted = c.writerCompleted)
    (hl : l.worth cv (asked l) = 0) : PaysFor capacity c cv l l' asked r := by
  refine .inr (.inr ?_)
  rw [channelNeed_congr hq hw, hl]
  omega

/-- A piece after which nobody on `cv` is needed pays. -/
private theorem PaysFor.zero {cv : ChannelCv} {l l' : ChannelLocal α} {asked : ChannelLocal α → Bool}
    {r : ChannelPiece α} (h : channelNeed capacity cv l' r.shared = 0) : PaysFor capacity c cv l l' asked r := by
  refine .inr (.inl ?_)
  rw [h]
  exact Nat.zero_le _

private theorem PaysFor.completed {cv : ChannelCv} {l l' : ChannelLocal α} {asked : ChannelLocal α → Bool}
    {r : ChannelPiece α} (h : r.shared.writerCompleted = true) : PaysFor capacity c cv l l' asked r :=
  .zero (by simp [channelNeed, h])

private theorem pays_readFails {l l' : ChannelLocal α} {call : Nat} {kind : Reading} {token : Option Nat}
    {c' : Channel α} {cv : ChannelCv} {asked : ChannelLocal α → Bool} (error : ChannelReadErrors)
    (hl : ReadAt c l call kind token c') (h : l.worth cv (asked l) = 0) :
    PaysFor capacity c cv l l' asked (c'.readFails call kind error) := by
  obtain ⟨-, -, h3, h4⟩ := hl.call_eq
  obtain ⟨e, he, -⟩ := readFails_cases c' call kind error
  rw [he]
  exact .still h3 h4 h

/-- An insertion notifies a reader if there is one asleep; whoever takes a value was woken for it or for none. -/
private theorem pays_notEmpty (l l' : ChannelLocal α) (asked : ChannelLocal α → Bool) (seen : Bool)
    (ht : ∀ call token, l = .readAfterWait call .waitToRead token → c.queue ≠ [] → c.writerCompleted = true)
    (hr : c.readWaiters ≠ 0) :
    PaysFor capacity c .notEmpty l l' asked ((channel α capacity).exec l c (asked l) seen) := by
  have hm := channel_moves capacity l c (asked l) seen
  generalize hstop : asked l = stop at hm
  generalize (channel α capacity).exec l c stop seen = r at hm ⊢
  cases hm with
  | emplaceFail hl h =>
    obtain ⟨-, -, h3, h4⟩ := hl.call_eq
    exact .still h3 h4 (hl.worth_notEmpty _)
  | insert hl hc hf =>
    obtain ⟨-, -, h3, h4⟩ := hl.call_eq
    obtain ⟨h5, -⟩ := hl.waiters
    refine .inr (.inr ?_)
    rw [hl.worth_notEmpty]
    simp [channelNeed, Channel.insert, h3, h4, h5, hc, hr, Next.credit, After.credit]
  | readCancelled hl => exact pays_readFails _ hl (by rw [hstop]; exact worth_stopped _ _)
  | @readEmpty l call kind token c' hl hq =>
    obtain ⟨-, -, h3, h4⟩ := hl.call_eq
    obtain ⟨e, he, -⟩ := readFails_cases c' call kind .channelEmpty
    rw [he]
    exact .zero (by simp [channelNeed, h3, hq])
  | take hl hq hk =>
    obtain ⟨-, -, h3, h4⟩ := hl.call_eq
    cases hc : c.writerCompleted with
    | true => exact .completed (h4.trans hc)
    | false =>
      refine .inr (.inr ?_)
      have h1 := worth_le .notEmpty l (asked l)
      simp only [channelNeed, Channel.remove, h4, hc, hq, List.length_cons, Bool.false_eq_true, if_false]
      omega
  | mayRead hl =>
    -- the value stays, so the wake-up of a call behind its wait is lost to those asleep
    cases hl with
    | check => exact .still rfl rfl rfl
    | afterWait =>
      by_cases hq : c.queue = []
      · exact .zero (by simp [channelNeed, hq])
      · exact .completed (ht _ _ rfl hq)
  | tryTake call stop value rest hq =>
    refine .inr (.inr ?_)
    have h1 : channelNeed capacity .notEmpty l' { c with queue := rest } ≤ channelNeed capacity .notEmpty l' c := by
      simp only [channelNeed, hq, List.length_cons]
      split <;> omega
    exact Nat.le_trans h1 (Nat.le_add_right _ _)
  | completeWriter => exact .inl (by simp [Channel.completeWriter, Next.sendsAll])
  | _ => exact .still rfl rfl rfl

/-- A removal notifies a writer if there is one asleep; whoever inserts a value was woken for its place or for none. -/
private theorem pays_notFull (l l' : ChannelLocal α) (asked : ChannelLocal α → Bool) (seen : Bool)
    (hw : c.writeWaiters ≠ 0) :
    PaysFor capacity c .notFull l l' asked ((channel α capacity).exec l c (asked l) seen) := by
  have hm := channel_moves capacity l c (asked l) seen
  generalize hstop : asked l = stop at hm
  generalize (channel α capacity).exec l c stop seen = r at hm ⊢
  have removed : ∀ (rest : List α) (value : α), c.queue = value :: rest →
      capacity - rest.length ≤ capacity - c.queue.length + 1 := by
    intro rest value hq
    rw [hq, List.length_cons]
    omega
  cases hm with
  | emplaceFail hl h =>
    obtain ⟨-, -, h3, h4⟩ := hl.call_eq
    rcases h with rfl | h | h
    · exact .still h3 h4 (by rw [hstop]; exact worth_stopped _ _)
    · exact .completed (h4.trans h)
    · refine .zero ?_
      simp only [Channel.full, Bool.and_eq_true, decide_eq_true_eq] at h
      simp only [channelNeed, h3]
      split <;> omega
  | insert hl hc hf =>
    obtain ⟨-, -, h3, h4⟩ := hl.call_eq
    have h1 := worth_le .notFull l (asked l)
    by_cases hfull : capacity ≤ c.queue.length
    · refine .zero ?_
      simp only [channelNeed, Channel.insert, h3, h4, hc, List.length_append, List.length_singleton]
      simp only [Bool.false_eq_true, if_false]
      omega
    · refine .inr (.inr ?_)
      simp only [channelNeed, Channel.insert, h3, h4, hc, List.length_append, List.length_singleton]
      simp only [Bool.false_eq_true, if_false]
      omega
  | readCancelled hl => exact pays_readFails _ hl (hl.worth_notFull _)
  | readEmpty hl hq => exact pays_readFails _ hl (hl.worth_notFull _)
  | take hl hq hk =>
    obtain ⟨-, -, h3, h4⟩ := hl.call_eq
    obtain ⟨h5, -⟩ := hl.waiters
    cases hc : c.writerCompleted with
    | true => exact .completed (h4.trans hc)
    | false =>
      refine .inr (.inr ?_)
      have h1 := removed _ _ hq
      rw [hl.worth_notFull]
      simp only [channelNeed, Channel.remove, h4, h5, hc, Next.credit, hw, ne_eq, not_false_eq_true, if_true,
        Bool.false_eq_true, if_false, List.count_singleton_self]
      omega
  | mayRead hl =>
    obtain ⟨-, -, h3, h4⟩ := hl.call_eq
    exact .still h3 h4 (hl.worth_notFull _)
  | tryTake call stop value rest hq =>
    cases hc : c.writerCompleted with
    | true => exact .completed hc
    | false =>
      refine .inr (.inr ?_)
      have h1 := removed _ _ hq
      simp only [channelNeed, Channel.remove, hc, Next.credit, hw, ne_eq, not_false_eq_true, if_true,
        Bool.false_eq_true, if_false, List.count_singleton_self, ChannelLocal.worth]
      omega
  | completeWriter => exact .inl (by simp [Channel.completeWriter, Next.sendsAll])
  | _ => exact .still rfl rfl rfl

/-- In runs in which no wake-up is dropped, every piece pays. -/
private theorem channel_pays {ok : ChannelState τ α → ChannelAction τ α → Prop}
    (hkeeps : ∀ tr s, ((channel α capacity).machine τ).Exec ok (State.init .new) tr s → ∀ a, ok s a →
      KeepsWakeUp s a ∧ KeepsValueWakeUp s a) :
    (channel α capacity).Pays (τ := τ) ok .new (channelNeed capacity) ChannelLocal.worth where
  piece tr s h t seen l hok hl u cv l' hu := by
    have hw := waiters_of_asleep h hu
    cases cv with
    | notEmpty =>
      refine pays_notEmpty l l' ((channel α capacity).asked s) seen ?_ hw
      rintro call token rfl hq
      exact (hkeeps tr s h _ hok).2 t seen call token u l' rfl hl hq hu
    | notFull => exact pays_notFull l l' ((channel α capacity).asked s) seen hw
  sleep tr s h t cv l ht hp := by
    cases channelWaits_of_exec h (t := t) (by rw [ht]; rfl) with
    | notFull call value token =>
      have h0 : channelNeed capacity .notFull (.emplaceAfterWait call value token) s.shared = 0 := by
        simp only [channel, Channel.canWrite, Bool.or_eq_false_iff, Bool.not_eq_false', Channel.full,
          Bool.and_eq_true, decide_eq_true_eq] at hp
        simp only [channelNeed, hp.1, Bool.false_eq_true, if_false]
        omega
      refine ⟨h0, ?_⟩
      intro u cv l' _
      cases cv with
      | notFull => exact .inl h0
      | notEmpty => exact .inr rfl
    | notEmpty call kind token =>
      have h0 : channelNeed capacity .notEmpty (.readAfterWait call kind token) s.shared = 0 := by
        simp only [channel, Channel.canRead, Bool.or_eq_false_iff, Bool.not_eq_false', List.isEmpty_iff] at hp
        simp [channelNeed, hp.2]
      refine ⟨h0, ?_⟩
      intro u cv l' _
      cases cv with
      | notFull => exact .inr rfl
      | notEmpty => exact .inl h0
  wake tr s h t cv l ht := by
    cases channelWaits_of_exec h (t := t) (by rw [ht]; rfl) <;> exact Nat.le_refl _
  stop tr s h k hok hk u cv l' hu hne t l hl htok hwith := by
    by_contra hlt
    have hwaits : l.Waits cv := waits_of_worth (show l.worth cv false ≠ 0 by omega)
    have hopen : s.shared.writerCompleted ≠ true := by
      intro hc
      simp [channelNeed, hc] at hne
    have starts : (s.phase t).turn? = some l → False := by
      intro ht
      cases starts_of_exec h ht <;> cases hwaits
    have waits : ∀ cv', (s.phase t).wait? = some (cv', l) → False := by
      intro cv' ht
      have : cv' = cv := by cases channelWaits_of_exec h ht <;> cases hwaits <;> rfl
      subst this
      simp [Monitor.waitsWith, ht, htok] at hwith
    cases hph : s.phase t with
    | outside => rw [hph] at hl; cases hl
    | ready l₀ => rw [hph] at hl starts; exact starts hl
    | locked l₀ =>
      rw [hph] at hl
      cases hl
      exact hopen ((hkeeps tr s h _ hok).1 k cv t l u l' rfl hk hph hwaits htok hu)
    | waiting cv' l₀ => rw [hph] at hl waits; cases hl; exact waits cv' rfl
    | asleep cv' l₀ => rw [hph] at hl waits; cases hl; exact waits cv' rfl
    | woken cv' l₀ => rw [hph] at hl waits; cases hl; exact waits cv' rfl
    | notifying n ns k' =>
      rw [hph] at hl starts
      cases k' with
      | again l₀ => exact starts hl
      | done evs => cases hl

/-- Whoever completes the writer notifies all. -/
private theorem completes_piece (l : ChannelLocal α) (c : Channel α) (stop seen : Bool)
    (h : ((channel α capacity).exec l c stop seen).shared.writerCompleted = true) :
    c.writerCompleted = true ∨ ∀ cv, ((channel α capacity).exec l c stop seen).next.sendsAll cv := by
  have hm := channel_moves capacity l c stop seen
  generalize (channel α capacity).exec l c stop seen = r at hm h ⊢
  cases hm with
  | emplaceFail hl => exact .inl (hl.call_eq.2.2.2.symm.trans h)
  | insert hl => exact .inl (hl.call_eq.2.2.2.symm.trans h)
  | readCancelled hl =>
    obtain ⟨e, he, -⟩ := readFails_cases _ _ _ _
    rw [he] at h
    exact .inl (hl.call_eq.2.2.2.symm.trans h)
  | readEmpty hl =>
    obtain ⟨e, he, -⟩ := readFails_cases _ _ _ _
    rw [he] at h
    exact .inl (hl.call_eq.2.2.2.symm.trans h)
  | take hl => exact .inl (hl.call_eq.2.2.2.symm.trans h)
  | mayRead hl => exact .inl (hl.call_eq.2.2.2.symm.trans h)
  | completeWriter => exact .inr (by intro cv; cases cv <;> simp [Channel.completeWriter, Next.sendsAll])
  | _ => exact .inl h

/-- As soon as nobody is active, nobody is asleep after the completion of the writer. -/
private theorem open_of_asleep {ok : ChannelState τ α → ChannelAction τ α → Prop}
    (h : ((channel α capacity).machine τ).Exec ok (State.init .new) tr s) (hq : s.Quiescent) {t : τ}
    {cv : ChannelCv} {l : ChannelLocal α} (ht : s.phase t = .asleep cv l) :
    s.shared.writerCompleted = false := by
  cases hc : s.shared.writerCompleted with
  | false => rfl
  | true =>
    obtain ⟨u, hu⟩ := Monitor.sendsAll_invariant (F := fun c => c.writerCompleted = true) h nofun
      (by intro cv l c hF; cases cv <;> simp [channel, Channel.canRead, Channel.canWrite, hF])
      (fun l c stop seen => completes_piece l c stop seen) hc ht
    rcases hq u with hp | ⟨cv', l', hp⟩ <;> rw [hp] at hu <;> cases hu

/-- Without `wait_to_read` no call leaves its wait without its value. -/
private theorem keeps_of_passesOn (h : ((channel α capacity).machine τ).Exec PassesOn (State.init .new) tr s)
    (a : ChannelAction τ α) (hok : PassesOn s a) : KeepsWakeUp s a ∧ KeepsValueWakeUp s a := by
  refine ⟨hok.2, ?_⟩
  intro t seen call token u l' _ ht _ _
  have htakes := takes_of_exec h t (.readAfterWait call .waitToRead token) (by rw [ht]; rfl)
  exact absurd rfl htakes

/-- In every run without `wait_to_read` in which no stop request comes to a call between its wait and its second look at
its stop token while another one is asleep: once nobody is active, no reader is asleep while there is a value, and no
writer while there is room. -/
theorem channel_no_lost_wakeup (h : ((channel α capacity).machine τ).Exec PassesOn (State.init .new) tr s)
    (hq : s.Quiescent) :
    (∀ t l, s.phase t = .asleep .notEmpty l → s.shared.queue = []) ∧
    ∀ t l, s.phase t = .asleep .notFull l → s.shared.full capacity = true := by
  constructor
  · intro t l ht
    have h0 := (channel_pays fun _ _ => keeps_of_passesOn).need_eq_zero h hq ht
    simpa [channelNeed, open_of_asleep h hq ht] using h0
  · intro t l ht
    have h0 := (channel_pays fun _ _ => keeps_of_passesOn).need_eq_zero h hq ht
    have hcap : 0 < capacity := by
      have htakes := takes_of_exec h t l (by rw [ht]; rfl)
      cases channelWaits_of_exec h (t := t) (by rw [ht]; rfl)
      exact htakes
    simp only [channelNeed, open_of_asleep h hq ht, Bool.false_eq_true, if_false] at h0
    simp only [Channel.full, Bool.and_eq_true, decide_eq_true_eq]
    omega

/-- Thread `1` waits, takes the value that thread `0` inserts, and waits again. -/
def readTwice : List (ChannelAction (Fin 2) Nat) :=
  [.call 1 (.read .WAIT none), .run 1 false, .run 1 false, .run 1 false,
    .call 0 (.emplace .WAIT 5 none), .run 0 false, .run 0 false, .run 0 false, .notify 0 (some 1),
    .run 1 false, .run 1 false, .run 1 false,
    .call 1 (.read .WAIT none), .run 1 false, .run 1 false, .run 1 false]

theorem channel_no_lost_wakeup_readTwice :
    ∃ tr, ∃ s : ChannelState (Fin 2) Nat,
      ((channel Nat 1).machine (Fin 2)).Exec PassesOn (State.init .new) tr s ∧ s.Quiescent ∧
      (s.phase 1).asleepOn .notEmpty = true ∧ s.shared.queue = [] := by
  obtain ⟨tr, s, h, hc⟩ := Machine.exists_exec_of_run ((channel Nat 1).machine (Fin 2)) PassesOn (State.init .new)
    (fun _ a => match a with | .call _ (.waitToRead _) | .requestStop _ => false | _ => true) readTwice
    (fun _ s => decide (s.Quiescent ∧ (s.phase 1).asleepOn .notEmpty = true))
    (by
      intro s a ha
      constructor
      · rintro t token rfl
        cases ha
      · rintro k cv t l u l' rfl
        cases ha) (by decide)
  obtain ⟨hq, h1⟩ := of_decide_eq_true hc
  obtain ⟨l, hl⟩ := Monitor.asleepOn_eq_true h1
  exact ⟨tr, s, h, hq, h1, (channel_no_lost_wakeup h hq).1 1 l hl⟩

/-- Threads `1` and `2` wait for a value, thread `0` inserts one and wakes thread `1`, which passes its wait; then a stop
is requested on its token. -/
def stopBehindWait : List (ChannelAction (Fin 3) Nat) :=
  [.call 1 (.read .WAIT (some 7)), .run 1 false, .run 1 false, .run 1 false,
    .call 2 (.read .WAIT none), .run 2 false, .run 2 false, .run 2 false,
    .call 0 (.emplace .WAIT 5 none), .run 0 false, .run 0 false, .run 0 false, .notify 0 (some 1),
    .run 1 false, .run 1 false, .requestStop 7, .run 1 false]

/-- A stop request behind the wait drops the wake-up: the other reader stays asleep although there is a value. -/
theorem channel_wakeup_lost_stopBehindWait :
    ∃ tr, ∃ s : ChannelState (Fin 3) Nat, ∃ l,
      ((channel Nat 1).machine (Fin 3)).Exec NoWaitToRead (State.init .new) tr s ∧ s.Quiescent ∧
      s.phase 2 = .asleep .notEmpty l ∧ s.shared.queue = [5] := by
  obtain ⟨tr, s, h, hc⟩ := Machine.exists_exec_of_run ((channel Nat 1).machine (Fin 3)) NoWaitToRead (State.init .new)
    (fun _ a => match a with | .call _ (.waitToRead _) => false | _ => true) stopBehindWait
    (fun _ s => decide (s.Quiescent ∧ (s.phase 2).asleepOn .notEmpty = true ∧ s.shared.queue = [5]))
    (by
      rintro s a ha t token rfl
      cases ha) (by decide)
  obtain ⟨hq, h2, hv⟩ := of_decide_eq_true hc
  obtain ⟨l, hl⟩ := Monitor.asleepOn_eq_true h2
  exact ⟨tr, s, l, h, hq, hl, hv⟩

/-! ### `wait_to_read` -/

private theorem channel_token (l : ChannelLocal α) (c : Channel α) (stop seen : Bool) (l' : ChannelLocal α)
    (h : ((channel α capacity).exec l c stop seen).next.local? = some l') : l'.token = l.token := by
  have hm := channel_moves capacity l c stop seen
  generalize (channel α capacity).exec l c stop seen = r at hm h
  cases hm with
  | emplaceWait => cases h; rfl
  | emplaceGo => cases h; rfl
  | readAllGo => cases h; rfl
  | readWait => cases h; rfl
  | readGo => cases h; rfl
  | readCancelled => obtain ⟨e, he, -⟩ := readFails_cases _ _ _ _; rw [he] at h; cases h
  | readEmpty => obtain ⟨e, he, -⟩ := readFails_cases _ _ _ _; rw [he] at h; cases h
  | take hl hq hk =>
    cases hk with
    | read => cases h
    | readAll => cases h; cases hl <;> rfl
  | _ => cases h

private theorem token_of_exec {ok : ChannelState τ α → ChannelAction τ α → Prop}
    (hok : ∀ s a, ok s a → NoStopTokens s a)
    (h : ((channel α capacity).machine τ).Exec ok (State.init .new) tr s) :
    ∀ t l, (s.phase t).local? = some l → l.token = none := by
  refine (Monitor.shared_invariant (P := fun _ => True) (Q := fun l => l.token = none) h trivial ?_ ?_).2
  · intro s t op l ha hl
    have htoken := hok s _ ha t op rfl
    cases hl
    cases op with
    | read strategy token => cases strategy <;> first | exact htoken | rfl
    | _ => exact htoken
  · intro l c stop seen _ hl
    refine ⟨trivial, ?_⟩
    intro l' hn
    exact (channel_token l c stop seen l' hn).trans hl

/-- In every run without stop tokens in which `wait_to_read` never leaves its wait in front of a value while another call
is asleep for one: once nobody is active, no reader is asleep while there is a value. -/
theorem wait_to_read_keeps_wakeup
    (h : ((channel α capacity).machine τ).Exec (fun s a => NoStopTokens s a ∧ KeepsValueWakeUp s a)
      (State.init .new) tr s)
    (hq : s.Quiescent) (t : τ) (l : ChannelLocal α) (ht : s.phase t = .asleep .notEmpty l) : s.shared.queue = [] := by
  have hkeeps : ∀ tr s, ((channel α capacity).machine τ).Exec (fun s a => NoStopTokens s a ∧ KeepsValueWakeUp s a)
      (State.init .new) tr s → ∀ a, NoStopTokens s a ∧ KeepsValueWakeUp s a →
      KeepsWakeUp s a ∧ KeepsValueWakeUp s a := by
    intro tr s h a hok
    refine ⟨?_, hok.2⟩
    intro k cv t l u l' _ _ hl _ htoken _
    have hnone := token_of_exec (fun _ _ hok => hok.1) h t l (Monitor.local?_of_locked hl)
    rw [hnone] at htoken
    cases htoken
  have h0 := (channel_pays hkeeps).need_eq_zero h hq ht
  simpa [channelNeed, open_of_asleep h hq ht] using h0

/-- Thread `1` waits for the value that thread `0` inserts, reads it in a second call, and waits again. -/
def waitThenRead : List (ChannelAction (Fin 2) Nat) :=
  [.call 1 (.waitToRead none), .run 1 false, .run 1 false, .run 1 false,
    .call 0 (.emplace .WAIT 5 none), .run 0 false, .run 0 false, .run 0 false, .notify 0 (some 1),
    .run 1 false, .run 1 false, .run 1 false,
    .call 1 (.read .WAIT none), .run 1 false, .run 1 false, .run 1 false,
    .call 1 (.waitToRead none), .run 1 false, .run 1 false, .run 1 false]

theorem wait_to_read_keeps_wakeup_waitThenRead :
    ∃ tr, ∃ s : ChannelState (Fin 2) Nat,
      ((channel Nat 1).machine (Fin 2)).Exec (fun s a => NoStopTokens s a ∧ KeepsValueWakeUp s a)
        (State.init .new) tr s ∧ s.Quiescent ∧ (s.phase 1).asleepOn .notEmpty = true ∧ s.shared.queue = [] := by
  obtain ⟨tr, s, h, hc⟩ := Machine.exists_exec_of_run ((channel Nat 1).machine (Fin 2))
    (fun s a => NoStopTokens s a ∧ KeepsValueWakeUp s a) (State.init .new)
    (fun s a => match a with
      | .call _ op => op.token.isNone
      | .run t _ =>
        match s.phase t with
        | .locked (.readAfterWait _ .waitToRead _) => decide (∀ u, (s.phase u).asleepOn .notEmpty = false)
        | _ => true
      | _ => true) waitThenRead
    (fun _ s => decide (s.Quiescent ∧ (s.phase 1).asleepOn .notEmpty = true))
    (by
      intro s a ha
      constructor
      · rintro t op rfl
        exact Option.isNone_iff_eq_none.1 ha
      · rintro t seen call token u l' rfl ht - hu
        simp only [ht, decide_eq_true_eq] at ha
        have hno := ha u
        rw [hu] at hno
        cases hno) (by decide)
  obtain ⟨hq, h1⟩ := of_decide_eq_true hc
  obtain ⟨l, hl⟩ := Monitor.asleepOn_eq_true h1
  exact ⟨tr, s, h, hq, h1, wait_to_read_keeps_wakeup h hq 1 l hl⟩

/-- Thread `1` waits until there is a value and thread `2` reads; thread `0` inserts one and wakes thread `1`, which
returns and does not read. -/
def waitAndLeave : List (ChannelAction (Fin 3) Nat) :=
  [.call 1 (.waitToRead none), .run 1 false, .run 1 false, .run 1 false,
    .call 2 (.read .WAIT none), .run 2 false, .run 2 false, .run 2 false,
    .call 0 (.emplace .WAIT 5 none), .run 0 false, .run 0 false, .run 0 false, .notify 0 (some 1),
    .run 1 false, .run 1 false, .run 1 false]

/-- `wait_to_read` has taken the only wake-up: the reader stays asleep although there is a value. -/
theorem wakeup_stolen_waitAndLeave :
    ∃ tr, ∃ s : ChannelState (Fin 3) Nat, ∃ l,
      ((channel Nat 1).machine (Fin 3)).Exec NoStopTokens (State.init .new) tr s ∧ s.Quiescent ∧
      s.phase 2 = .asleep .notEmpty l ∧ s.shared.queue = [5] := by
  obtain ⟨tr, s, h, hc⟩ := Machine.exists_exec_of_run ((channel Nat 1).machine (Fin 3)) NoStopTokens (State.init .new)
    (fun _ a => match a with | .call _ op => op.token.isNone | _ => true) waitAndLeave
    (fun _ s => decide (s.Quiescent ∧ (s.phase 2).asleepOn .notEmpty = true ∧ s.shared.queue = [5]))
    (by
      rintro s a ha t op rfl
      exact Option.isNone_iff_eq_none.1 ha) (by decide)
  obtain ⟨hq, h2, hv⟩ := of_decide_eq_true hc
  obtain ⟨l, hl⟩ := Monitor.asleepOn_eq_true h2
  exact ⟨tr, s, l, h, hq, hl, hv⟩

end Xtd
