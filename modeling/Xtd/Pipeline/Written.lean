import Xtd.Pipeline.EndOfStream

/-!
# What was written

The data of the calls of `write`, in the order of the calls.  If every call has returned the size of its data, this is
the stream of committed bytes.
-/

namespace Xtd

open Concurrency

def PipeEvent.writtenBytes : PipeEvent → List Byte
  | writeCall _ data => data
  | _ => []

def PipeEvent.callBytes (i : Nat) : PipeEvent → List Byte
  | writeCall call data => if call = i then data else []
  | _ => []

/-- The data of the calls of `write`, in the order of the calls. -/
def written (tr : List PipeEvent) : List Byte := tr.flatMap PipeEvent.writtenBytes

/-- The data of call number `i`. -/
private def callData (tr : List PipeEvent) (i : Nat) : List Byte := tr.flatMap (PipeEvent.callBytes i)

variable {ρ π τ : Type} [MemoryResource ρ π] [DecidableEq τ] [Fintype τ] {o : ValidatedOptions} {w : τ} {m : ρ}
  {tr evs : List PipeEvent} {s s' : PipeState τ ρ π} {a : PipeAction τ}

private theorem callData_append (tr tr' : List PipeEvent) (i : Nat) :
    callData (tr ++ tr') i = callData tr i ++ callData tr' i := by
  simp [callData]

private theorem callData_of_no_call {tr : List PipeEvent} (h : ∀ i data, .writeCall i data ∉ tr) (i : Nat) :
    written tr = [] ∧ callData tr i = [] := by
  simp only [written, callData, List.flatMap_eq_nil_iff]
  constructor <;> intro e he
  · cases e with
    | writeCall j data => exact absurd he (h j data)
    | _ => rfl
  · cases e with
    | writeCall j data => exact absurd he (h j data)
    | _ => rfl

omit [DecidableEq τ] [Fintype τ] in
private theorem no_writeCall_piece (l : PipeLocal) (p : Pipe ρ π) (stop oom : Bool) (i : Nat) (data : List Byte) :
    .writeCall i data ∉ ((pipeline ρ o).exec l p stop oom).events := by
  have hm := pipe_moves o l p stop oom
  generalize (pipeline ρ o).exec l p stop oom = r at hm ⊢
  have tail : ∀ {q : Pipe ρ π}, .writeCall i data ∉ (q.readTail stop).events := by
    intro q
    rcases readTail_cases q stop with ⟨-, he⟩ | ⟨-, he⟩ <;> rw [he] <;> simp
  cases hm with
  | leave => exact nofun
  | pause => exact nofun
  | readNow => exact tail
  | readAfter => exact tail
  | _ => simp [Pipe.completeWriter, Pipe.completeReader]

/-- A step shows one new call of `write`, with the next number, or none. -/
private theorem writeCall_step {ok : PipeState τ ρ π → PipeAction τ → Prop}
    (h : ((pipeline ρ o).machine τ).Exec ok (State.init (Pipe.new m)) tr s) (hm : (pipeline ρ o).Moves s a s' evs) :
    (∃ data, s'.calls = s.calls + 1 ∧ written evs = data ∧
      (∀ i, callData evs i = if s.calls = i then data else []) ∧
      ∀ i data', .writeCall i data' ∈ evs → i = s.calls ∧ data' = data) ∨
    (s.calls ≤ s'.calls ∧ ∀ i data, .writeCall i data ∉ evs) := by
  rcases hm.events_eq with ⟨t, op, rfl, -, rfl, hcalls⟩ | ⟨t, z, l, evs', rfl, hl, rfl, hd, hcalls⟩ |
    ⟨-, -, hd, hcalls⟩
  · have hen := pipe_enters op s.calls
    change (∃ data, _ ∧ written (op.enter s.calls).1 = data ∧ (∀ i, callData (op.enter s.calls).1 i = _) ∧
      ∀ i data', _ ∈ (op.enter s.calls).1 → _) ∨ _ ∧ ∀ i data, _ ∉ (op.enter s.calls).1
    generalize (op.enter s.calls).1 = evs at hen ⊢
    generalize (op.enter s.calls).2 = l? at hen
    cases hen with
    | writeNothing data =>
      refine .inl ⟨data.bytes, hcalls, by simp [written, PipeEvent.writtenBytes], ?_, by simp⟩
      intro i
      simp [callData, PipeEvent.callBytes]
    | write data =>
      refine .inl ⟨data.bytes, hcalls, by simp [written, PipeEvent.writtenBytes], ?_, by simp⟩
      intro i
      simp [callData, PipeEvent.callBytes]
    | _ => exact .inr ⟨by omega, by simp⟩
  · refine .inr ⟨by omega, ?_⟩
    intro i data he
    rcases List.mem_append.1 he with he | he
    · exact no_writeCall_piece l s.shared (s.stop l.token) z i data he
    · cases doneEvents_isEnd o _ _ _ _ _ (hd _ he)
  · refine .inr ⟨by omega, ?_⟩
    intro i data he
    obtain ⟨t, ht⟩ := hd _ he
    cases Monitor.doneEvents_of_exec h (fun l y stop z _ _ _ _ => doneEvents_isEnd o l y stop z) t _ ht

private theorem flatMap_range_fresh {f : Nat → List Byte} {n n' : Nat} (hle : n ≤ n') (hf : ∀ j, n ≤ j → f j = []) :
    (List.range n').flatMap f = (List.range n).flatMap f := by
  induction hle with
  | refl => rfl
  | @step k hk ih =>
    rw [List.range_succ, List.flatMap_append, ih]
    simp [hf k hk]

private theorem written_of_exec {ok : PipeState τ ρ π → PipeAction τ → Prop}
    (h : ((pipeline ρ o).machine τ).Exec ok (State.init (Pipe.new m)) tr s) :
    written tr = (List.range s.calls).flatMap (callData tr) ∧ (∀ i, s.calls ≤ i → callData tr i = []) ∧
      ∀ i data, .writeCall i data ∈ tr → callData tr i = data ∧ i < s.calls := by
  induction h with
  | nil => exact ⟨rfl, fun _ _ => rfl, nofun⟩
  | @snoc tr evs s s' a h hok hs ih =>
    obtain ⟨hwritten, hfresh, hdata⟩ := ih
    have happ : written (tr ++ evs) = written tr ++ written evs := by simp [written]
    rcases writeCall_step h (Monitor.moves_of_step hs) with ⟨data, hcalls, hw, hnew, honly⟩ | ⟨hle, hno⟩
    · refine ⟨?_, ?_, ?_⟩
      · rw [happ, hw, hwritten, hcalls, flatMap_range_add (Nat.lt_succ_self s.calls) (fun j hj => hfresh j (by omega))
          (fun j => by rw [callData_append, hnew]), flatMap_range_fresh (Nat.le_succ s.calls) hfresh]
      · intro i hi
        rw [callData_append, hfresh i (by omega), hnew, if_neg (by omega)]
        rfl
      · intro i data' hmem
        rcases List.mem_append.1 hmem with hmem | hmem
        · obtain ⟨h1, h2⟩ := hdata i data' hmem
          rw [callData_append, h1, hnew, if_neg (by omega), List.append_nil]
          exact ⟨rfl, by omega⟩
        · obtain ⟨rfl, rfl⟩ := honly i data' hmem
          rw [callData_append, hfresh _ (Nat.le_refl _), hnew, if_pos rfl]
          exact ⟨rfl, by omega⟩
    · have hnil := callData_of_no_call hno
      have hsame : ∀ i, callData (tr ++ evs) i = callData tr i := by
        intro i
        rw [callData_append, (hnil i).2, List.append_nil]
      refine ⟨?_, ?_, ?_⟩
      · rw [happ, (hnil 0).1, List.append_nil, hwritten, List.flatMap_congr (fun i _ => hsame i),
          flatMap_range_fresh hle hfresh]
      · intro i hi
        rw [hsame]
        exact hfresh i (by omega)
      · intro i data hmem
        rcases List.mem_append.1 hmem with hmem | hmem
        · rw [hsame]
          obtain ⟨h1, h2⟩ := hdata i data hmem
          exact ⟨h1, by omega⟩
        · exact absurd hmem (hno i data)

/-- Only calls of `write` commit. -/
private theorem writeCall_of_committed
    (h : ((pipeline ρ o).machine τ).Exec (OneWriter w) (State.init (Pipe.new m)) tr s)
    (hr : s.shared.readerCompleted = false) (i : Nat) (hne : committed tr i ≠ []) : ∃ data, .writeCall i data ∈ tr := by
  induction h with
  | nil => exact absurd rfl hne
  | @snoc tr evs s s' a h hok hs ih =>
    have hr' := readerCompleted_of_exec (.snoc .nil hok hs) hr
    by_cases hold : committed tr i = []
    · rw [committed_append, hold, List.nil_append] at hne
      obtain ⟨e, he, hbytes⟩ : ∃ e ∈ evs, e.committedBytes i ≠ [] := by
        simpa [committed, List.flatMap_eq_nil_iff] using hne
      cases e with
      | commit j bytes =>
        obtain ⟨t, z, l, rfl, hl, hp, -⟩ := shown_by_piece h (Monitor.moves_of_step hs) he rfl (by simp)
        have hA := accounted_of_open h hr'
        have hR := recorded_of_open h hr'
        have hlt : (s.phase t).local? = some l := Monitor.local?_of_locked hl
        have hne : l ≠ .completeReader := by
          rintro rfl
          simp [pipeline, Monitor.piece, Pipe.completeReader] at hp
        rcases stream_piece hA ((accounted_of_exec h).2 t l hlt) hne (s.stop l.token) z with
          ⟨k, rest, copied, n, hc⟩ | hc
        · change _ ∈ ((pipeline ρ o).exec l s.shared (s.stop l.token) z).events at hp
          rw [hc.events, List.mem_singleton, PipeEvent.commit.injEq] at hp
          obtain ⟨rfl, rfl⟩ := hp
          have hji : j = i := by
            by_contra hji
            exact hbytes (if_neg hji)
          subst hji
          exact ⟨_, List.mem_append_left _ (hR.active t l j rest copied hlt hc.before).2.data⟩
        · have hnil := List.flatMap_eq_nil_iff.1 (hc.commits i) _ hp
          exact absurd hnil hbytes
      | _ => exact absurd rfl hbytes
    · obtain ⟨data, hdata⟩ := ih hr' hold
      exact ⟨data, List.mem_append_left _ hdata⟩

/-- If every call of `write` has returned the size of its data, the stream is what was written. -/
theorem stream_eq_written (h : ((pipeline ρ o).machine τ).Exec (OneWriter w) (State.init (Pipe.new m)) tr s)
    (hr : s.shared.readerCompleted = false)
    (hfull : ∀ i data, .writeCall i data ∈ tr → ∃ stop, .writeReturn i data.length stop ∈ tr) :
    (List.range s.calls).flatMap (committed tr) = written tr := by
  have hR := recorded_of_open h hr
  obtain ⟨hwritten, -, hdata⟩ := written_of_exec h
  rw [hwritten]
  refine List.flatMap_congr ?_
  intro i _
  by_cases hcall : ∃ data, .writeCall i data ∈ tr
  · obtain ⟨data, hmem⟩ := hcall
    obtain ⟨stop, hret⟩ := hfull i data hmem
    obtain ⟨data', hmem', -, hcom, -⟩ := hR.returned i data.length stop (.inl hret)
    rw [(hdata i data hmem).1, hcom, (hR.calls i data hmem).2.2 data' hmem', List.take_length]
  · have h1 : committed tr i = [] := by
      by_contra hne
      exact hcall (writeCall_of_committed h hr i hne)
    have h2 : callData tr i = [] := by
      refine List.flatMap_eq_nil_iff.2 ?_
      intro e he
      cases e with
      | writeCall j data =>
        refine if_neg ?_
        rintro rfl
        exact hcall ⟨data, he⟩
      | _ => rfl
    rw [h1, h2]

end Xtd
