import Xtd.Concurrency.Alone
import Xtd.Pipeline.Stream

/-!
# Cancelling a write

A write whose stop token asks for a stop is meant to return the number of bytes it has committed.  The stop is looked at
in the inner loop of `write`, which is skipped while the writer is paused: the wait returns at once because of the stop,
the inner loop does nothing, and the outer loop, which only ends when the data is used up, starts again.  So a cancelled
write ends by its own steps exactly if the writer is not paused or there is no data left.
-/

namespace Xtd

open Concurrency

variable {ρ π τ : Type} [MemoryResource ρ π] [DecidableEq τ] [Fintype τ] {o : ValidatedOptions} {p : Pipe ρ π}
  {tr evs : List PipeEvent} {s s' : PipeState τ ρ π} {a : PipeAction τ}

/-! ### The bytes of each call -/

/-- A piece is a chunk of a write, or commits nothing and leaves the write under way where it is. -/
theorem commits_piece (hA : p.readerCompleted = true ∨ Accounted o p) {l : PipeLocal} (hl : l.Ordered)
    (stop oom : Bool) :
    (∃ i rest copied n, IsChunk p l ((pipeline ρ o).exec l p stop oom) i rest copied n) ∨
      ((∀ i, committed ((pipeline ρ o).exec l p stop oom).events i = []) ∧
        ∀ l', ((pipeline ρ o).exec l p stop oom).next.local? = some l' →
          l'.writing? = l.writing? ∨ l'.writing? = none) := by
  rcases hA with hr | hA
  · right
    have hm := pipe_moves o l p stop oom
    generalize (pipeline ρ o).exec l p stop oom = r at hm ⊢
    have unlock : ∀ {q : Pipe ρ π} {call data copied notify token stop l'},
        (q.writeUnlock call data copied notify token stop).next.local? = some l' →
        l'.writing? = some (call, data, copied) := by
      intro q call data copied notify token stop l' h
      rw [writeUnlock_local h]
      rfl
    have tail : ∀ {q : Pipe ρ π}, ∀ i, committed (q.readTail stop).events i = [] := by
      intro q i
      rcases readTail_cases q stop with ⟨-, he⟩ | ⟨-, he⟩ <;> rw [he] <;> rfl
    cases hm with
    | chunk q n hd hp hc => simp [Pipe.isAnyCompleted, hr] at hc
    | topWait => exact ⟨fun _ => rfl, fun l' h => by cases h; exact .inl rfl⟩
    | leave => exact ⟨fun _ => rfl, fun l' h => .inl (unlock h)⟩
    | pause => exact ⟨fun _ => rfl, fun l' h => .inl (unlock h)⟩
    | readWait => exact ⟨fun _ => rfl, fun l' h => by cases h; exact .inr rfl⟩
    | readNow => exact ⟨tail, fun l' h => by rw [readTail_local] at h; cases h⟩
    | readAfter => exact ⟨tail, fun l' h => by rw [readTail_local] at h; cases h⟩
    | _ => exact ⟨fun _ => rfl, fun l' h => nomatch h⟩
  · by_cases hne : l = .completeReader
    · subst hne
      exact .inr ⟨fun _ => rfl, fun l' h => nomatch h⟩
    · rcases stream_piece hA hl hne stop oom with hc | hc
      · exact .inl hc
      · exact .inr ⟨hc.commits, hc.after⟩

/-- The number of the write a thread is in. -/
def writeCallOf (s : PipeState τ ρ π) (t : τ) : Option Nat :=
  (s.phase t).local?.bind (fun l => l.writing?.map Prod.fst)

/-- Every write under way has committed as many bytes as it has counted. -/
structure Counted (tr : List PipeEvent) (s : PipeState τ ρ π) : Prop where
  numbered : Numbered s.calls (writeCallOf s)
  fresh : ∀ i, s.calls ≤ i → committed tr i = []
  copied : ∀ t l i rest copied, (s.phase t).local? = some l → l.writing? = some (i, rest, copied) →
    copied = (committed tr i).length ∧ copied + rest.length < SizeT.modulus

omit [MemoryResource ρ π] [DecidableEq τ] [Fintype τ] in
private theorem writeCallOf_eq {t : τ} {l : PipeLocal} {i : Nat} {rest : List Byte} {copied : Nat}
    (hl : (s.phase t).local? = some l) (hw : l.writing? = some (i, rest, copied)) : writeCallOf s t = some i := by
  simp [writeCallOf, hl, hw]

omit [MemoryResource ρ π] [DecidableEq τ] [Fintype τ] in
private theorem exists_of_writeCallOf {t : τ} {i : Nat} (h : writeCallOf s t = some i) :
    ∃ l rest copied, (s.phase t).local? = some l ∧ l.writing? = some (i, rest, copied) := by
  obtain ⟨l, hl, hmap⟩ := Option.bind_eq_some_iff.1 h
  obtain ⟨⟨i', rest, copied⟩, hw, rfl⟩ := Option.map_eq_some_iff.1 hmap
  exact ⟨l, rest, copied, hl, hw⟩

omit [MemoryResource ρ π] [DecidableEq τ] [Fintype τ] in
/-- A step that commits nothing, in which a write under way stays where it is, ends or is a new call with all of its data
left. -/
private theorem Counted.still (hC : Counted tr s) (hcom : ∀ i, committed evs i = []) (hcalls : s.calls ≤ s'.calls)
    (begins : Option τ)
    (hfrom : ∀ t l' i rest copied, (s'.phase t).local? = some l' → l'.writing? = some (i, rest, copied) →
      (∃ l, (s.phase t).local? = some l ∧ l.writing? = some (i, rest, copied)) ∨
      (begins = some t ∧ i = s.calls ∧ s.calls < s'.calls ∧ copied = 0 ∧ rest.length < SizeT.modulus)) :
    Counted (tr ++ evs) s' := by
  have hcom' := fun i => committed_append_of_nil tr (hcom i)
  refine ⟨hC.numbered.step begins hcalls ?_, ?_, ?_⟩
  · intro t i hi
    obtain ⟨l', rest, copied, hl', hw'⟩ := exists_of_writeCallOf hi
    rcases hfrom t l' i rest copied hl' hw' with ⟨l, hl, hw⟩ | ⟨hb, hi, hlt, -⟩
    · exact .inl (writeCallOf_eq hl hw)
    · exact .inr ⟨hb, hi, hlt⟩
  · intro i hi
    rw [hcom']
    exact hC.fresh i (by omega)
  · intro t l' i rest copied hl' hw'
    rw [hcom']
    rcases hfrom t l' i rest copied hl' hw' with ⟨l, hl, hw⟩ | ⟨-, rfl, -, rfl, hlen⟩
    · exact hC.copied t l i rest copied hl hw
    · rw [hC.fresh _ (Nat.le_refl _)]
      exact ⟨rfl, by omega⟩

omit [MemoryResource ρ π] [DecidableEq τ] [Fintype τ] in
/-- A chunk of the write of `t`. -/
private theorem Counted.chunk (hC : Counted tr s) {t : τ} {l l' : PipeLocal} {i n : Nat} {rest : List Byte}
    {copied : Nat} (hl : (s.phase t).local? = some l) (hw : l.writing? = some (i, rest, copied)) (hn : n ≤ rest.length)
    (hl' : (s'.phase t).local? = some l') (hw' : l'.writing? = some (i, rest.drop n, SizeT.add copied n))
    (hother : ∀ u, u ≠ t → (s'.phase u).local? = (s.phase u).local?) (hcalls : s'.calls = s.calls)
    (hown : committed evs i = rest.take n) (hnone : ∀ j, i ≠ j → committed evs j = []) :
    Counted (tr ++ evs) s' := by
  obtain ⟨hcop, hsize⟩ := hC.copied t l i rest copied hl hw
  have hlt := hC.numbered.lt t i (writeCallOf_eq hl hw)
  have hcalls' : ∀ u j, writeCallOf s' u = some j → writeCallOf s u = some j := by
    intro u j hj
    by_cases hu : u = t
    · subst hu
      rw [writeCallOf_eq hl' hw'] at hj
      rw [writeCallOf_eq hl hw]
      exact hj
    · rw [writeCallOf, hother u hu] at hj
      exact hj
  refine ⟨hC.numbered.step none (Nat.le_of_eq hcalls.symm) (fun u j hj => .inl (hcalls' u j hj)), ?_, ?_⟩
  · intro j hj
    rw [committed_append, hnone j (by omega), List.append_nil]
    exact hC.fresh j (by omega)
  · intro u m j rest' copied' hu hm
    by_cases hut : u = t
    · subst hut
      cases hl'.symm.trans hu
      cases hw'.symm.trans hm
      have hlen : (rest.take n).length = n := by simp; omega
      rw [committed_append, hown, List.length_append, hlen, SizeT.add_eq (by omega), hcop, List.length_drop]
      omega
    · have hu' := (hother u hut).symm.trans hu
      have hij : i ≠ j := by
        rintro rfl
        exact hut (hC.numbered.inj u t i (writeCallOf_eq hu' hm) (writeCallOf_eq hl hw))
      rw [committed_append, hnone j hij, List.append_nil]
      exact hC.copied u m j rest' copied' hu' hm

theorem counted_of_exec {ok : PipeState τ ρ π → PipeAction τ → Prop} {m : ρ}
    (h : ((pipeline ρ o).machine τ).Exec ok (State.init (Pipe.new m)) tr s) : Counted tr s := by
  induction h with
  | nil => exact ⟨⟨nofun, nofun⟩, fun _ _ => rfl, nofun⟩
  | @snoc tr evs s s' a h hok hs ih =>
    have hm := Monitor.moves_of_step hs
    obtain ⟨hacc, hord⟩ := accounted_of_exec h
    have hend := Monitor.doneEvents_of_exec h (fun l y stop z _ _ _ _ => doneEvents_isEnd o l y stop z)
    rcases hm.events_eq with ⟨t, op, rfl, hout, rfl, hcalls⟩ | ⟨t, z, l, evs', ha, hl, rfl, hd, hcalls⟩ |
      ⟨hcall, hrun, hd, hcalls⟩
    · have hen := pipe_enters op s.calls
      obtain ⟨-, hown, hother⟩ := hm.of_call
      refine ih.still (committed_of_still hen.still) (by omega) (some t) ?_
      intro u l' i rest copied hu hw
      by_cases hut : u = t
      · subst hut
        obtain ⟨-, rfl, rfl, -, hlen⟩ := hen.writing (hown.symm.trans hu) hw
        exact .inr ⟨rfl, rfl, by omega, rfl, hlen⟩
      · exact .inl ⟨l', (hother u hut).symm.trans hu, hw⟩
    · subst ha
      obtain ⟨-, hown, hother⟩ := hm.of_piece hl
      have hlt : (s.phase t).local? = some l := Monitor.local?_of_locked hl
      have hstill : ∀ i, committed evs' i = [] :=
        committed_of_still (fun e he => still_of_isEnd (doneEvents_isEnd o _ _ _ _ e (hd e he)))
      rcases commits_piece hacc (hord t l hlt) (s.stop l.token) z with ⟨i, rest, copied, n, hc⟩ | ⟨hcom, hafter⟩
      · obtain ⟨l', hn, hw'⟩ := hc.after
        have hev : ∀ j, committed (((pipeline ρ o).piece s l z).events ++ evs') j =
            if i = j then rest.take n else [] := by
          intro j
          rw [committed_append, hstill, List.append_nil,
            show ((pipeline ρ o).piece s l z).events = _ from hc.events]
          simp [committed, PipeEvent.committedBytes]
        exact ih.chunk hlt hc.before hc.le (by rw [hown]; exact congrArg Next.local? hn) hw' hother hcalls
          (by rw [hev, if_pos rfl]) (fun j hj => by rw [hev, if_neg hj])
      · refine ih.still ?_ (Nat.le_of_eq hcalls.symm) none ?_
        · intro i
          rw [committed_append, hstill, List.append_nil]
          exact hcom i
        · intro u l' i rest copied hu hw
          by_cases hut : u = t
          · subst hut
            rcases hafter l' (hown.symm.trans hu) with he | he
            · exact .inl ⟨l, hlt, he ▸ hw⟩
            · rw [he] at hw; cases hw
          · exact .inl ⟨l', (hother u hut).symm.trans hu, hw⟩
    · refine ih.still ?_ (Nat.le_of_eq hcalls.symm) none ?_
      · refine committed_of_still (fun e he => ?_)
        obtain ⟨t, ht⟩ := hd e he
        exact still_of_isEnd (hend t e ht)
      · intro u l' i rest copied hu hw
        rcases hm.local_eq hu with ⟨hu, -⟩ | ⟨op, ha, -⟩ | ⟨z, l₀, ha, hl₀, -⟩
        · exact .inl ⟨l', hu, hw⟩
        · exact absurd ha (hcall u op)
        · exact absurd hl₀ (hrun u z l₀ ha)

/-! ### The end of a cancelled write -/

/-- The call number `i` returns `n` or, if an endpoint is completed, throws; nothing else is shown. -/
def WriteEnds (completed : Bool) (i n : Nat) (evs : List PipeEvent) : Prop :=
  (∃ stop, evs = [.writeReturn i n stop]) ∨
    (completed = true ∧ evs = [.writeThrow i (.logicError "pipeline is completed")])

omit [MemoryResource ρ π] [DecidableEq τ] [Fintype τ] in
private theorem stop_congr (h : s'.stopped = s.stopped) (token : Option Nat) : s'.stop token = s.stop token := by
  cases token with
  | none => rfl
  | some k => exact congrFun h k

/-- The inner loop of a cancelled write that is not paused, or has no data left, ends the call. -/
private theorem writeLoop_stopped (o : ValidatedOptions) (i : Nat) {rest : List Byte} (copied : Nat) (notify : Bool)
    (token : Option Nat) (h : p.writerPaused = false ∨ rest = []) (oom : Bool) :
    ∃ ns evs, (pipeline ρ o).exec (.writeLoop i rest copied notify token) p true oom = ⟨p, [], .release ns (.done evs)⟩ ∧
      WriteEnds p.isAnyCompleted i copied evs := by
  have hm := pipe_moves o (.writeLoop i rest copied notify token) p true oom
  generalize (pipeline ρ o).exec (.writeLoop i rest copied notify token) p true oom = r at hm ⊢
  cases hm with
  | leave hleave =>
    rcases writeUnlock_cases p i rest copied notify token true with ⟨-, he⟩ | ⟨hne, -⟩
    · rw [he]
      exact ⟨_, _, rfl, .inl ⟨true, rfl⟩⟩
    · have hp : p.writerPaused = true := hleave.resolve_left hne
      rw [hp] at h
      exact absurd (h.resolve_left nofun) hne
  | loopThrow _ _ hc => exact ⟨_, _, rfl, .inr ⟨hc, rfl⟩⟩
  | loopStop => exact ⟨_, _, rfl, .inl ⟨true, rfl⟩⟩

private theorem finishes_of_writeLoop {t : τ} {i : Nat} {rest : List Byte} {copied : Nat} {notify : Bool}
    {token : Option Nat} (hl : s.phase t = .locked (.writeLoop i rest copied notify token)) (hstop : s.stop token = true)
    (h : s.shared.writerPaused = false ∨ rest = []) :
    (pipeline ρ o).Finishes t (WriteEnds s.shared.isAnyCompleted i copied) s := by
  refine Monitor.finishes_of_end hl ?_
  intro z
  obtain ⟨ns, evs, hpiece, hends⟩ := writeLoop_stopped o i copied notify token h z
  refine ⟨s.shared, ns, evs, ?_, hends⟩
  rw [← hpiece, ← hstop]
  rfl

private theorem finishes_of_writeTop {t : τ} {i : Nat} {rest : List Byte} {copied : Nat} {token : Option Nat}
    (hl : s.phase t = .locked (.writeTop i rest copied token)) (hstop : s.stop token = true)
    (h : s.shared.writerPaused = false ∨ rest = []) :
    (pipeline ρ o).Finishes t (WriteEnds s.shared.isAnyCompleted i copied) s := by
  have hpiece : ∀ z, (pipeline ρ o).piece s (.writeTop i rest copied token) z =
      s.shared.writeTop i rest copied token := fun _ => rfl
  unfold Pipe.writeTop at hpiece
  by_cases hc : s.shared.isAnyCompleted = true
  · simp only [hc, ↓reduceIte] at hpiece
    exact Monitor.finishes_of_end hl (fun z => ⟨_, _, _, hpiece z, .inr ⟨hc, rfl⟩⟩)
  · simp only [hc, Bool.false_eq_true, ↓reduceIte] at hpiece
    refine Monitor.finishes_of_wait hl hpiece ?_
    intro s₁ hsh₁ hst₁ hl₁
    have hstop₁ : s₁.stop token = true := (stop_congr hst₁ token).trans hstop
    refine Monitor.finishes_of_waiting hl₁ hstop₁ ?_
    intro s₂ hsh₂ hst₂ hl₂
    rw [hsh₁] at hsh₂
    rw [← hsh₂] at h ⊢
    exact finishes_of_writeLoop hl₂ ((stop_congr hst₂ token).trans hstop₁) h

/-- A cancelled write that is not paused, or has no data left, ends wherever it is. -/
private theorem finishes_of_write {t : τ} {l : PipeLocal} {i : Nat} {rest : List Byte} {copied : Nat}
    (hx : Monitor.Exclusive s) (ht : (s.phase t).local? = some l) (hw : l.writing? = some (i, rest, copied))
    (hstop : s.stop l.token = true) (hawake : ∀ c l, s.phase t ≠ .asleep c l) (hlock : s.lock = none ∨ s.lock = some t)
    (h : s.shared.writerPaused = false ∨ rest = []) :
    (pipeline ρ o).Finishes t (WriteEnds s.shared.isAnyCompleted i copied) s := by
  -- at the lock the write ends, and everywhere else it comes to the lock
  have locked : ∀ s' : PipeState τ ρ π, s'.shared = s.shared → s'.stopped = s.stopped → s'.phase t = .locked l →
      (pipeline ρ o).Finishes t (WriteEnds s.shared.isAnyCompleted i copied) s' := by
    intro s' hsh hst hl
    have hstop' : s'.stop l.token = true := (stop_congr hst l.token).trans hstop
    rw [← hsh] at h ⊢
    cases l with
    | writeTop => cases hw; exact finishes_of_writeTop hl hstop' h
    | writeLoop => cases hw; exact finishes_of_writeLoop hl hstop' h
    | _ => cases hw
  have free : (s.phase t).holds = false → s.lock = none := by
    intro hh
    rcases hlock with hlock | hlock
    · exact hlock
    · rw [(hx t).1 hlock] at hh
      cases hh
  have ready : ∀ s' : PipeState τ ρ π, s'.shared = s.shared → s'.stopped = s.stopped → s'.lock = none →
      s'.phase t = .ready l → (pipeline ρ o).Finishes t (WriteEnds s.shared.isAnyCompleted i copied) s' := by
    intro s' hsh hst hl hp
    exact Monitor.finishes_of_ready hp hl (fun s'' h1 h2 => locked s'' (h1.trans hsh) (h2.trans hst))
  have waiting : ∀ (c : CondVar) (s' : PipeState τ ρ π), s'.shared = s.shared → s'.stopped = s.stopped →
      s'.phase t = .waiting c l → (pipeline ρ o).Finishes t (WriteEnds s.shared.isAnyCompleted i copied) s' := by
    intro c s' hsh hst hp
    exact Monitor.finishes_of_waiting hp ((stop_congr hst l.token).trans hstop)
      (fun s'' h1 h2 => locked s'' (h1.trans hsh) (h2.trans hst))
  cases hp : s.phase t with
  | outside => rw [hp] at ht; cases ht
  | ready l' => rw [hp] at ht; cases ht; exact ready s rfl rfl (free (by rw [hp]; rfl)) hp
  | locked l' => rw [hp] at ht; cases ht; exact locked s rfl rfl hp
  | waiting c l' => rw [hp] at ht; cases ht; exact waiting c s rfl rfl hp
  | asleep c l' => exact absurd hp (hawake c l')
  | woken c l' =>
    rw [hp] at ht
    cases ht
    exact Monitor.finishes_of_woken hp (free (by rw [hp]; rfl)) (fun s' h1 h2 => waiting c s' h1 h2)
  | notifying n ns k =>
    rw [hp] at ht
    cases k with
    | done evs => cases ht
    | again l' =>
      cases ht
      have hp' : s.phase t = (afterRelease (n :: ns) (.again l)).1 := hp
      refine Monitor.finishes_of_afterRelease hp' nofun ?_
      rintro _ ⟨⟩ s' hsh hlk hst hr
      exact ready s' hsh hst (hlk.trans (free (by rw [hp]; rfl))) hr

/-! ### A cancelled write that is paused -/

/-- Completion clears the pause, and there is no pause after it. -/
private theorem paused_piece (h : p.writerPaused = true → p.isAnyCompleted = false) (l : PipeLocal) (stop oom : Bool) :
    ((pipeline ρ o).exec l p stop oom).shared.writerPaused = true →
      ((pipeline ρ o).exec l p stop oom).shared.isAnyCompleted = false := by
  have hm := pipe_moves o l p stop oom
  generalize (pipeline ρ o).exec l p stop oom = r at hm ⊢
  cases hm with
  | pause hd hp hc ha => exact fun _ => hc
  | chunk q n hd hp hc ha hq =>
    obtain ⟨r, segs, b, a, rfl⟩ := copyChunk_frame hq
    exact fun _ => hc
  | readNow => rcases readTail_cases p stop with ⟨-, he⟩ | ⟨-, he⟩ <;> rw [he] <;> exact h
  | readAfter =>
    rcases readTail_cases { p with readerWaiting := false } stop with ⟨-, he⟩ | ⟨-, he⟩ <;> rw [he] <;> exact h
  | advance q paused hr hp he hx hq hpa =>
    subst hq
    intro hpaused
    change paused = true at hpaused
    rw [hpa, Bool.and_eq_true] at hpaused
    exact h hpaused.1
  | completeWriter => exact nofun
  | completeReader => exact nofun
  | _ => exact h

theorem not_completed_of_paused {ok : PipeState τ ρ π → PipeAction τ → Prop} {m : ρ}
    (h : ((pipeline ρ o).machine τ).Exec ok (State.init (Pipe.new m)) tr s) (hp : s.shared.writerPaused = true) :
    s.shared.isAnyCompleted = false := by
  refine (Monitor.shared_invariant (P := fun p => p.writerPaused = true → p.isAnyCompleted = false)
    (Q := fun _ => True) h nofun (fun _ _ _ _ _ _ => trivial) ?_).1 hp
  exact fun l p stop oom hP _ => ⟨paused_piece hP l stop oom, fun _ _ => trivial⟩

/-- Thread `t` is in a cancelled write with data left, and paused. -/
structure Spins (t : τ) (i : Nat) (rest : List Byte) (s : PipeState τ ρ π) : Prop where
  writing : ∃ l copied, (s.phase t).local? = some l ∧ l.writing? = some (i, rest, copied) ∧ s.stop l.token = true
  paused : s.shared.writerPaused = true
  completed : s.shared.isAnyCompleted = false

/-- The piece of a write that is paused leaves everything as it is. -/
private theorem paused_write_piece {l : PipeLocal} {i : Nat} {rest : List Byte} {copied : Nat}
    (hw : l.writing? = some (i, rest, copied)) (hne : rest ≠ []) (hp : p.writerPaused = true)
    (hc : p.isAnyCompleted = false) (stop oom : Bool) :
    ((pipeline ρ o).exec l p stop oom).shared = p ∧
      ∃ l', ((pipeline ρ o).exec l p stop oom).next.local? = some l' ∧ l'.writing? = some (i, rest, copied) ∧
        l'.token = l.token := by
  cases l with
  | writeTop call data n token =>
    cases hw
    show (p.writeTop i rest copied token).shared = p ∧ _
    have he : (pipeline ρ o).exec (.writeTop i rest copied token) p stop oom = p.writeTop i rest copied token := rfl
    rw [he]
    unfold Pipe.writeTop
    rw [hc]
    exact ⟨rfl, _, rfl, rfl, rfl⟩
  | writeLoop call data n notify token =>
    cases hw
    have he : (pipeline ρ o).exec (.writeLoop i rest copied notify token) p stop oom =
        p.writeUnlock i rest copied notify token stop := by
      show p.writeLoop o i rest copied notify token stop oom = _
      simp [Pipe.writeLoop, hp]
    rw [he]
    rcases writeUnlock_cases p i rest copied notify token stop with ⟨hnil, -⟩ | ⟨-, he⟩
    · exact absurd hnil hne
    · rw [he]
      exact ⟨rfl, _, rfl, rfl, rfl⟩
  | _ => cases hw

/-- The steps of a cancelled write that is paused lead nowhere. -/
private theorem Spins.step {t : τ} {i : Nat} {rest : List Byte} (hS : Spins t i rest s) (hne : rest ≠ [])
    (ha : a.Own t) (hm : (pipeline ρ o).Moves s a s' evs) : Spins t i rest s' := by
  obtain ⟨l, copied, hl, hw, hstop⟩ := hS.writing
  have hnocall : ∀ u op, a ≠ .call u op := by
    rcases ha with ⟨z, rfl⟩ | ⟨target, rfl⟩ <;> exact nofun
  rcases hm.shared_eq with ⟨hsh, hidle⟩ | ⟨u, z, l₀, rfl, hl₀, hsh⟩
  · have hloc := hm.local?_of_idle (hnocall t) (hidle t)
    exact ⟨⟨l, copied, hloc.trans hl, hw, hm.stop_mono hstop⟩, by rw [hsh]; exact hS.paused, by
      rw [hsh]; exact hS.completed⟩
  · obtain rfl : u = t := by
      rcases ha with ⟨z', h⟩ | ⟨target, h⟩ <;> cases h
      rfl
    obtain rfl : l₀ = l := by
      rw [hl₀] at hl
      exact Option.some.inj hl
    obtain ⟨hpiece, l', hnext, hw', htok⟩ := paused_write_piece (o := o) hw hne hS.paused hS.completed
      (s.stop l₀.token) z
    have hsh' : s'.shared = s.shared := hsh.trans hpiece
    refine ⟨⟨l', copied, (hm.of_piece hl₀).2.1.trans hnext, hw', ?_⟩, by rw [hsh']; exact hS.paused, by
      rw [hsh']; exact hS.completed⟩
    rw [htok]
    exact hm.stop_mono hstop

/-- A cancelled write that is paused with data left never ends by its own steps. -/
theorem spins_not_finishes {t : τ} {i : Nat} {rest : List Byte} {Q : List PipeEvent → Prop} (hS : Spins t i rest s)
    (hne : rest ≠ []) : ¬ (pipeline ρ o).Finishes t Q s := by
  refine Monitor.Finishes.not_of_invariant (J := Spins t i rest) ?_ ?_ hS
  · intro s hS hout
    obtain ⟨l, copied, hl, -⟩ := hS.writing
    rw [hout] at hl
    cases hl
  · exact fun s a s' evs hS ha hm => hS.step hne ha hm

/-- A write whose stop token asks for a stop and that has the lock or finds it free: it ends after finitely many of its own
steps, returning the number of bytes it has committed, or throwing if an endpoint is completed, and committing nothing
on the way, exactly if the writer is not paused or there is no data left. -/
theorem cancelled_write_finishes_iff {m : ρ} {t : τ} {l : PipeLocal} {i : Nat} {rest : List Byte} {copied : Nat}
    (h : ((pipeline ρ o).machine τ).Exec Machine.Any (State.init (Pipe.new m)) tr s)
    (ht : (s.phase t).local? = some l) (hw : l.writing? = some (i, rest, copied)) (hstop : s.stop l.token = true)
    (hlock : s.lock = none ∨ s.lock = some t) :
    (pipeline ρ o).Finishes t (WriteEnds s.shared.isAnyCompleted i (committed tr i).length) s ↔
      (s.shared.writerPaused = false ∨ rest = []) := by
  have hcop := ((counted_of_exec h).copied t l i rest copied ht hw).1
  rw [← hcop]
  constructor
  · intro hf
    by_contra hno
    rw [not_or, Bool.not_eq_false] at hno
    exact spins_not_finishes ⟨⟨l, copied, ht, hw, hstop⟩, hno.1, not_completed_of_paused h hno.1⟩ hno.2 hf
  · intro hc
    refine finishes_of_write (Monitor.exclusive_of_exec h) ht hw hstop ?_ hlock hc
    intro c l' hp
    rw [hp] at ht
    cases ht
    have := Monitor.asleep_not_stopped h hp
    rw [show (pipeline ρ o).token l = l.token from rfl, hstop] at this
    cases this

/-- Thread `0` begins a write with a token that was stopped before. -/
def writeStopped : List (PipeAction (Fin 2)) :=
  [.requestStop 7, .call 0 (.write .oneToThree (some 7))]

theorem cancelled_write_finishes_writeStopped :
    ∃ tr, ∃ s : PipeState (Fin 2) FixedPoolResource Nat,
      ((pipeline FixedPoolResource .small).machine (Fin 2)).Exec Machine.Any (State.init (Pipe.new (.make .small))) tr s ∧
      s.shared.writerPaused = false ∧
      (pipeline FixedPoolResource .small).Finishes 0 (WriteEnds s.shared.isAnyCompleted 0 (committed tr 0).length) s := by
  obtain ⟨tr, s, h, hc⟩ := Machine.exists_exec_of_run ((pipeline FixedPoolResource .small).machine (Fin 2))
    Machine.Any (State.init (Pipe.new (.make .small))) (fun _ _ => true) writeStopped
    (fun _ s => decide ((s.phase 0).local?.map (fun l => (l.writing?, l.token)) = some (some (0, [1, 2, 3], 0), some 7) ∧
      s.stopped 7 = true ∧ s.lock = none ∧ s.shared.writerPaused = false)) (fun _ _ _ => trivial) (by decide)
  obtain ⟨hl, hst, hlock, hp⟩ := of_decide_eq_true hc
  obtain ⟨l, ht, hl⟩ := Option.map_eq_some_iff.1 hl
  obtain ⟨hw, htok⟩ := Prod.mk.inj hl
  exact ⟨tr, s, h, hp, (cancelled_write_finishes_iff h ht hw (by rw [htok]; exact hst) (.inl hlock)).2 (.inl hp)⟩

/-- Thread `0` writes five bytes and is paused after four; then its token is stopped. -/
def stopWhilePaused : List (PipeAction (Fin 2)) :=
  [.call 0 (.write .oneToFive (some 7)),
    .run 0 false, .run 0 false, .run 0 false, .run 0 false, .run 0 false, .run 0 false, .requestStop 7]

/-- The cancelled write has one byte left and does not end by its own steps. -/
theorem cancelled_write_spins_stopWhilePaused :
    ∃ tr, ∃ s : PipeState (Fin 2) FixedPoolResource Nat, ∃ l,
      ((pipeline FixedPoolResource .small).machine (Fin 2)).Exec Machine.Any (State.init (Pipe.new (.make .small))) tr s ∧
      (s.phase 0).local? = some l ∧ l.writing? = some (0, [5], 4) ∧ s.stop l.token = true ∧ s.lock = none ∧
      s.shared.isAnyCompleted = false ∧ committed tr 0 = [1, 2, 3, 4] ∧
      ∀ Q, ¬ (pipeline FixedPoolResource .small).Finishes 0 Q s := by
  obtain ⟨tr, s, h, hc⟩ := Machine.exists_exec_of_run ((pipeline FixedPoolResource .small).machine (Fin 2))
    Machine.Any (State.init (Pipe.new (.make .small))) (fun _ _ => true) stopWhilePaused
    (fun tr s => decide ((s.phase 0).local?.map (fun l => (l.writing?, l.token)) = some (some (0, [5], 4), some 7) ∧
      s.stopped 7 = true ∧ s.lock = none ∧ s.shared.writerPaused = true ∧ s.shared.isAnyCompleted = false ∧
      committed tr 0 = [1, 2, 3, 4])) (fun _ _ _ => trivial) (by decide)
  obtain ⟨hl, hst, hlock, hp, hany, hcom⟩ := of_decide_eq_true hc
  obtain ⟨l, ht, hl⟩ := Option.map_eq_some_iff.1 hl
  obtain ⟨hw, htok⟩ := Prod.mk.inj hl
  have hstop : s.stop l.token = true := by rw [htok]; exact hst
  exact ⟨tr, s, l, h, ht, hw, hstop, hlock, hany, hcom, fun Q =>
    spins_not_finishes ⟨⟨l, 4, ht, hw, hstop⟩, hp, hany⟩ (List.cons_ne_nil _ _)⟩

end Xtd
