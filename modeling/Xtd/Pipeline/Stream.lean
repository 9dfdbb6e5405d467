import Xtd.Pipeline.Accounting

/-!
# The byte stream

As long as the reader is not completed, the pipeline is a queue of bytes: what `advance` has dropped followed by what is
still readable is what the writes have committed, call after call.  Every write commits a prefix of its data.  Since one
logical writer makes all writes, the commits of a call are never followed by one of an earlier call, which is what the
invariant `Recorded` keeps, together with how far each write under way has come.
-/

namespace Xtd

open Concurrency

variable {ρ π τ : Type} [MemoryResource ρ π] [DecidableEq τ] [Fintype τ] {o : ValidatedOptions} {p : Pipe ρ π}

/-! ### What a trace says about bytes -/

def PipeEvent.droppedBytes : PipeEvent → List Byte
  | advanced bytes => bytes
  | _ => []

def PipeEvent.committedBytes (i : Nat) : PipeEvent → List Byte
  | commit call bytes => if call = i then bytes else []
  | _ => []

/-- The bytes dropped by the successful calls of `advance`, in order. -/
def dropped (tr : List PipeEvent) : List Byte := tr.flatMap PipeEvent.droppedBytes

/-- The bytes committed by call number `i`, in order. -/
def committed (tr : List PipeEvent) (i : Nat) : List Byte := tr.flatMap (PipeEvent.committedBytes i)

theorem dropped_append (tr tr' : List PipeEvent) : dropped (tr ++ tr') = dropped tr ++ dropped tr' := by
  simp [dropped]

theorem committed_append (tr tr' : List PipeEvent) (i : Nat) :
    committed (tr ++ tr') i = committed tr i ++ committed tr' i := by
  simp [committed]

theorem committed_append_of_nil (tr : List PipeEvent) {tr' : List PipeEvent} {i : Nat} (h : committed tr' i = []) :
    committed (tr ++ tr') i = committed tr i := by
  rw [committed_append, h, List.append_nil]

/-- An event that moves no bytes. -/
def PipeEvent.Still (e : PipeEvent) : Prop := e.droppedBytes = [] ∧ ∀ i, e.committedBytes i = []

theorem still_of_isEnd {e : PipeEvent} (h : e.isEnd = true) : e.Still := by
  cases e with
  | commit => cases h
  | advanced => cases h
  | _ => exact ⟨rfl, fun _ => rfl⟩

theorem dropped_of_still {tr : List PipeEvent} (h : ∀ e ∈ tr, e.Still) : dropped tr = [] := by
  simp only [dropped, List.flatMap_eq_nil_iff]
  exact fun e he => (h e he).1

theorem committed_of_still {tr : List PipeEvent} (h : ∀ e ∈ tr, e.Still) (i : Nat) : committed tr i = [] := by
  simp only [committed, List.flatMap_eq_nil_iff]
  exact fun e he => (h e he).2 i

private theorem flatMap_range_eq {f : Nat → List Byte} {i n : Nat} (hi : i < n) (hf : ∀ j, i < j → f j = []) :
    (List.range n).flatMap f = (List.range i).flatMap f ++ f i := by
  induction n with
  | zero => omega
  | succ n ih =>
    rw [List.range_succ, List.flatMap_append]
    by_cases hn : i = n
    · subst hn
      simp
    · rw [ih (by omega)]
      simp [hf n (by omega)]

/-- Bytes added to the last call that has any are added at the end. -/
theorem flatMap_range_add {f g : Nat → List Byte} {i n : Nat} {bytes : List Byte} (hi : i < n)
    (hf : ∀ j, i < j → f j = []) (hg : ∀ j, g j = f j ++ if i = j then bytes else []) :
    (List.range n).flatMap g = (List.range n).flatMap f ++ bytes := by
  have hlt : (List.range i).flatMap g = (List.range i).flatMap f := by
    refine List.flatMap_congr (fun j hj => ?_)
    have : i ≠ j := by
      have := List.mem_range.1 hj
      omega
    simp [hg, this]
  rw [flatMap_range_eq hi hf, flatMap_range_eq hi (fun j hj => by simp [hg, hf j hj, Nat.ne_of_lt hj]), hlt, hg i]
  simp

/-! ### What a piece does to the bytes -/

/-- The call number, the data left and the bytes copied of a write under way. -/
def PipeLocal.writing? : PipeLocal → Option (Nat × List Byte × Nat)
  | writeTop call data copied _ | writeLoop call data copied _ _ => some (call, data, copied)
  | _ => none

/-- An event of the end of a write. -/
def PipeEvent.EndsWrite (l : PipeLocal) : PipeEvent → Prop
  | writeReturn i n stop => ∃ rest, l.writing? = some (i, rest, n) ∧ (stop = false → rest = [])
  | writeThrow i _ => ∃ rest copied, l.writing? = some (i, rest, copied)
  | writeCall _ _ => False
  | _ => True

/-- A chunk of a write: it appends the next bytes of its data. -/
structure IsChunk (p : Pipe ρ π) (l : PipeLocal) (r : PipePiece ρ π) (i : Nat) (rest : List Byte) (copied n : Nat) :
    Prop where
  before : l.writing? = some (i, rest, copied)
  le : n ≤ rest.length
  events : r.events = [.commit i (rest.take n)]
  after : ∃ l', r.next = .hold l' ∧ l'.writing? = some (i, rest.drop n, SizeT.add copied n)
  bytes : readableBytes r.shared.segments = readableBytes p.segments ++ rest.take n

/-- A piece that is not a chunk: it may drop bytes from the front, and the write under way stays where it is or ends. -/
structure IsStill (p : Pipe ρ π) (l : PipeLocal) (r : PipePiece ρ π) : Prop where
  commits : ∀ i, committed r.events i = []
  bytes : dropped r.events ++ readableBytes r.shared.segments = readableBytes p.segments
  events : ∀ e ∈ r.events, e.isEnd = false ∧ ∀ i data, e ≠ .writeCall i data
  after : ∀ l', r.next.local? = some l' → l'.writing? = l.writing? ∨ l'.writing? = none
  ends : ∀ e ∈ r.next.doneEvents, e.EndsWrite l

omit [MemoryResource ρ π] in
/-- A piece that leaves the segments alone and shows nothing but the end of its call. -/
private theorem isStill_leave {q : Pipe ρ π} {l : PipeLocal} {ns : List (Notification CondVar)} {e : PipeEvent}
    (hq : q.segments = p.segments) (he : e.EndsWrite l) :
    IsStill p l ⟨q, [], .release ns (.done [e])⟩ where
  commits _ := rfl
  bytes := by simp [dropped, hq]
  events := by simp
  after := by simp [Next.local?]
  ends := by simp [Next.doneEvents, he]

omit [MemoryResource ρ π] in
private theorem isStill_writeUnlock {q : Pipe ρ π} {l : PipeLocal} {call : Nat} {data : List Byte} {copied : Nat}
    {notify : Bool} {token : Option Nat} {stop : Bool} (hq : q.segments = p.segments)
    (hl : l.writing? = some (call, data, copied)) :
    IsStill p l (q.writeUnlock call data copied notify token stop) := by
  rcases writeUnlock_cases q call data copied notify token stop with ⟨hd, he⟩ | ⟨-, he⟩ <;> rw [he]
  · exact isStill_leave hq ⟨data, hl, fun _ => hd⟩
  · refine ⟨fun _ => rfl, by simp [dropped, hq], by simp, ?_, by simp [Next.doneEvents]⟩
    rintro l' h
    cases h
    exact .inl hl.symm

omit [MemoryResource ρ π] in
private theorem isStill_readTail {q : Pipe ρ π} {l : PipeLocal} (stop : Bool) (hq : q.segments = p.segments) :
    IsStill p l (q.readTail stop) := by
  rcases readTail_cases q stop with ⟨-, he⟩ | ⟨-, he⟩ <;> rw [he]
  · exact isStill_leave hq trivial
  · exact ⟨fun _ => rfl, by simp [dropped, PipeEvent.droppedBytes, hq], by simp [PipeEvent.isEnd], by simp [Next.local?],
      by simp [Next.doneEvents]⟩

/-- Every piece but that of `complete_reader` is a chunk of a write or leaves the committed bytes alone. -/
theorem stream_piece (hA : Accounted o p) {l : PipeLocal} (hl : l.Ordered) (hne : l ≠ .completeReader)
    (stop oom : Bool) :
    (∃ i rest copied n, IsChunk p l ((pipeline ρ o).exec l p stop oom) i rest copied n) ∨
      IsStill p l ((pipeline ρ o).exec l p stop oom) := by
  have hm := pipe_moves o l p stop oom
  generalize (pipeline ρ o).exec l p stop oom = r at hm ⊢
  cases hm with
  | topThrow => exact .inr (isStill_leave rfl ⟨_, _, rfl⟩)
  | topWait =>
    refine .inr ⟨fun _ => rfl, rfl, by simp, ?_, by simp [Next.doneEvents]⟩
    rintro l' h
    cases h
    exact .inl rfl
  | leave => exact .inr (isStill_writeUnlock rfl rfl)
  | loopThrow => exact .inr (isStill_leave rfl ⟨_, _, rfl⟩)
  | loopStop =>
    refine .inr (isStill_leave rfl ⟨_, rfl, ?_⟩)
    intro h
    cases h
  | pause => exact .inr (isStill_writeUnlock rfl rfl)
  | loopOom => exact .inr (isStill_leave rfl ⟨_, _, rfl⟩)
  | chunk q n hd _ _ ha hq =>
    obtain ⟨-, -, hle, hbytes, -⟩ := copyChunk_spec hA hd ha hq
    exact .inl ⟨_, _, _, n, rfl, hle, rfl, ⟨_, rfl, rfl⟩, hbytes⟩
  | readThrow => exact .inr (isStill_leave rfl trivial)
  | readWait =>
    refine .inr ⟨fun _ => rfl, rfl, by simp, ?_, by simp [Next.doneEvents]⟩
    rintro l' h
    cases h
    exact .inr rfl
  | readNow => exact .inr (isStill_readTail stop rfl)
  | readAfter => exact .inr (isStill_readTail (q := { p with readerWaiting := false }) stop rfl)
  | advanceThrow => exact .inr (isStill_leave rfl trivial)
  | advanceFault evs _ _ he hx =>
    have hpend := hA.pending
    have hce : _ ≤ _ := hl
    exact absurd (consume_spec hA (by omega)).1 hx
  | advance q paused _ _ he hx hq hpa =>
    have hpend := hA.pending
    have hce : _ ≤ _ := hl
    obtain ⟨-, -, hdrop, hrest, -⟩ := consume_spec hA (Nat.le_trans hce (Nat.le_trans he hpend))
    subst hq
    refine .inr ⟨fun _ => rfl, ?_, by simp [PipeEvent.isEnd], by simp [Next.local?], by simp [Next.doneEvents]⟩
    simp only [dropped, List.flatMap_cons, List.flatMap_nil, PipeEvent.droppedBytes, List.append_nil, Pipe.afterConsume]
    rw [hdrop, hrest, List.take_append_drop]
  | completeWriter =>
    exact .inr ⟨fun _ => rfl, rfl, by simp [Pipe.completeWriter, PipeEvent.isEnd],
      by simp [Pipe.completeWriter, Next.local?],
      by simp [Pipe.completeWriter, Next.doneEvents]⟩
  | completeReader => exact absurd rfl hne

/-! ### The record of a run -/

/-- A call of `write` under way has committed the beginning of its data and no later call has committed anything. -/
structure Active (tr : List PipeEvent) (calls i : Nat) (rest : List Byte) (copied : Nat) : Prop where
  lt : i < calls
  last : ∀ j, i < j → committed tr j = []
  data : .writeCall i (committed tr i ++ rest) ∈ tr
  copied_eq : copied = (committed tr i).length
  size_lt : (committed tr i ++ rest).length < SizeT.modulus

/-- A call of `write` that returns `n` has committed the first `n` bytes of its data, and all of them if there was no
stop request. -/
def Returned (tr : List PipeEvent) (i n : Nat) (stop : Bool) : Prop :=
  ∃ data, .writeCall i data ∈ tr ∧ n ≤ data.length ∧ committed tr i = data.take n ∧ (stop = false → n = data.length)

theorem Active.append {tr evs : List PipeEvent} {calls calls' i : Nat} {rest : List Byte} {copied : Nat}
    (h : Active tr calls i rest copied) (hcom : ∀ i, committed evs i = []) (hc : calls ≤ calls') :
    Active (tr ++ evs) calls' i rest copied := by
  have hcom' := fun i => committed_append_of_nil tr (hcom i)
  refine ⟨Nat.lt_of_lt_of_le h.lt hc, fun j hj => ?_, ?_, ?_, ?_⟩
  · rw [hcom']; exact h.last j hj
  · rw [hcom']; exact List.mem_append_left _ h.data
  · rw [hcom']; exact h.copied_eq
  · rw [hcom']; exact h.size_lt

theorem Returned.append {tr evs : List PipeEvent} {i n : Nat} {stop : Bool} (h : Returned tr i n stop)
    (hcom : committed evs i = []) : Returned (tr ++ evs) i n stop := by
  obtain ⟨data, h1, h2, h3, h4⟩ := h
  exact ⟨data, List.mem_append_left _ h1, h2, by rw [committed_append_of_nil tr hcom]; exact h3, h4⟩

structure Recorded (w : τ) (tr : List PipeEvent) (s : PipeState τ ρ π) : Prop where
  stream : dropped tr ++ readableBytes s.shared.segments = (List.range s.calls).flatMap (committed tr)
  fresh : ∀ i, s.calls ≤ i → committed tr i = []
  calls : ∀ i data, .writeCall i data ∈ tr →
    i < s.calls ∧ committed tr i <+: data ∧ ∀ data', .writeCall i data' ∈ tr → data' = data
  active : ∀ t l i rest copied, (s.phase t).local? = some l → l.writing? = some (i, rest, copied) →
    t = w ∧ Active tr s.calls i rest copied
  returned : ∀ i n stop, Shown tr s (.writeReturn i n stop) → Returned tr i n stop
  ended : ∀ i n stop, Shown tr s (.writeReturn i n stop) → ∀ t l rest copied, (s.phase t).local? = some l →
    l.writing? ≠ some (i, rest, copied)
  thrown : ∀ i e, Shown tr s (.writeThrow i e) → ∃ data, .writeCall i data ∈ tr

variable {w : τ} {tr evs : List PipeEvent} {s s' : PipeState τ ρ π}

omit [MemoryResource ρ π] [DecidableEq τ] [Fintype τ] in
/-- The record of a step that commits nothing. -/
theorem Recorded.still (hR : Recorded w tr s) (hcom : ∀ i, committed evs i = [])
    (hnew : ∀ i data, .writeCall i data ∉ evs) (hcalls : s'.calls = s.calls)
    (hbytes : dropped evs ++ readableBytes s'.shared.segments = readableBytes s.shared.segments)
    (hactive : ∀ t l i rest copied, (s'.phase t).local? = some l → l.writing? = some (i, rest, copied) →
      ∃ l₀, (s.phase t).local? = some l₀ ∧ l₀.writing? = some (i, rest, copied))
    (hshown : ∀ e, Shown (tr ++ evs) s' e → e.isEnd = true →
      Shown tr s e ∨ ∃ t l, (s.phase t).local? = some l ∧ (s'.phase t).local? = none ∧ e.EndsWrite l) :
    Recorded w (tr ++ evs) s' := by
  have hcom' := fun i => committed_append_of_nil tr (hcom i)
  have hcall : ∀ i data, .writeCall i data ∈ tr ++ evs ↔ .writeCall i data ∈ tr := by
    intro i data
    simp [hnew i data]
  refine ⟨?_, ?_, ?_, ?_, ?_, ?_, ?_⟩
  · rw [dropped_append, List.append_assoc, hbytes, hR.stream, hcalls]
    exact List.flatMap_congr (fun i _ => (hcom' i).symm)
  · intro i hi
    rw [hcom']
    exact hR.fresh i (hcalls ▸ hi)
  · intro i data h
    obtain ⟨h1, h2, h3⟩ := hR.calls i data ((hcall i data).1 h)
    exact ⟨hcalls ▸ h1, by rw [hcom']; exact h2, fun data' h' => h3 data' ((hcall i data').1 h')⟩
  · intro t l i rest copied hl hw
    obtain ⟨l₀, hl₀, hw₀⟩ := hactive t l i rest copied hl hw
    obtain ⟨ht, h⟩ := hR.active t l₀ i rest copied hl₀ hw₀
    exact ⟨ht, h.append hcom (Nat.le_of_eq hcalls.symm)⟩
  · intro i n stop h
    rcases hshown _ h rfl with h | ⟨t, l, hl, -, rest, hw, hrest⟩
    · exact (hR.returned i n stop h).append (hcom i)
    · obtain ⟨-, hA⟩ := hR.active t l i rest n hl hw
      refine Returned.append ⟨committed tr i ++ rest, hA.data, ?_, ?_, ?_⟩ (hcom i)
      · rw [hA.copied_eq]; simp
      · rw [hA.copied_eq]; simp
      · intro hs
        rw [hA.copied_eq, hrest hs]; simp
  · intro i n stop h u l' rest' copied' hu hw'
    obtain ⟨l₀, hl₀, hw₀⟩ := hactive u l' i rest' copied' hu hw'
    rcases hshown _ h rfl with h | ⟨t, l, hl, hnone, rest, hw, -⟩
    · exact hR.ended i n stop h u l₀ rest' copied' hl₀ hw₀
    · -- only `w` writes, and its call is over
      have h1 := (hR.active t l i rest n hl hw).1
      have h2 := (hR.active u l₀ i rest' copied' hl₀ hw₀).1
      rw [h2, ← h1, hnone] at hu
      cases hu
  · intro i e h
    rcases hshown _ h rfl with h | ⟨t, l, hl, -, rest, copied, hw⟩
    · obtain ⟨data, hd⟩ := hR.thrown i e h
      exact ⟨data, (hcall i data).2 hd⟩
    · exact ⟨_, (hcall i _).2 (hR.active t l i rest copied hl hw).2.data⟩

omit [MemoryResource ρ π] [DecidableEq τ] [Fintype τ] in
/-- The record of a chunk of `w`. -/
theorem Recorded.chunk (hR : Recorded w tr s) {t : τ} {l l' : PipeLocal} {i n : Nat} {rest : List Byte} {copied : Nat}
    (hl : (s.phase t).local? = some l) (hw : l.writing? = some (i, rest, copied)) (hn : n ≤ rest.length)
    (hl' : (s'.phase t).local? = some l') (hw' : l'.writing? = some (i, rest.drop n, SizeT.add copied n))
    (hother : ∀ u, u ≠ t → (s'.phase u).local? = (s.phase u).local?) (hcalls : s'.calls = s.calls)
    (hbytes : readableBytes s'.shared.segments = readableBytes s.shared.segments ++ rest.take n)
    (hshown : ∀ e, Shown (tr ++ [.commit i (rest.take n)]) s' e → e.isEnd = true → Shown tr s e) :
    Recorded w (tr ++ [.commit i (rest.take n)]) s' := by
  obtain ⟨rfl, hA⟩ := hR.active t l i rest copied hl hw
  have hcom : ∀ j, committed (tr ++ [.commit i (rest.take n)]) j =
      committed tr j ++ if i = j then rest.take n else [] := by
    intro j
    rw [committed_append]
    simp [committed, PipeEvent.committedBytes]
  have hne : ∀ {j}, i ≠ j → committed (tr ++ [.commit i (rest.take n)]) j = committed tr j := by
    intro j hj
    simp [hcom, hj]
  have hown : committed (tr ++ [.commit i (rest.take n)]) i = committed tr i ++ rest.take n := by
    simp [hcom]
  have hcall : ∀ j data, .writeCall j data ∈ tr ++ [.commit i (rest.take n)] ↔ .writeCall j data ∈ tr := by
    simp
  -- the only write under way is that of the chunk
  have honly : ∀ {u m j rest' copied'}, (s'.phase u).local? = some m → m.writing? = some (j, rest', copied') →
      u = t ∧ j = i ∧ rest' = rest.drop n ∧ copied' = SizeT.add copied n := by
    intro u m j rest' copied' hu hm
    have hut : u = t := by
      by_contra hut
      rw [hother u hut] at hu
      exact hut (hR.active u m j rest' copied' hu hm).1
    subst hut
    rw [hl'] at hu
    cases hu
    rw [hw'] at hm
    cases hm
    exact ⟨rfl, rfl, rfl, rfl⟩
  refine ⟨?_, ?_, ?_, ?_, ?_, ?_, ?_⟩
  · rw [hcalls, flatMap_range_add hA.lt hA.last hcom, ← hR.stream, dropped_append, hbytes]
    simp [dropped, PipeEvent.droppedBytes]
  · intro j hj
    have := hA.lt
    rw [hne (by omega)]
    exact hR.fresh j (by omega)
  · intro j data h
    obtain ⟨h1, h2, h3⟩ := hR.calls j data ((hcall j data).1 h)
    refine ⟨hcalls ▸ h1, ?_, fun data' h' => h3 data' ((hcall j data').1 h')⟩
    by_cases hj : i = j
    · subst hj
      rw [hown, ← h3 _ hA.data, List.prefix_append_right_inj]
      exact List.take_prefix ..
    · rw [hne hj]; exact h2
  · intro u m j rest' copied' hu hm
    obtain ⟨rfl, rfl, rfl, rfl⟩ := honly hu hm
    have hsize := hA.size_lt
    have hlen : (rest.take n).length = n := by simp; omega
    refine ⟨rfl, hcalls ▸ hA.lt, fun k hk => ?_, ?_, ?_, ?_⟩
    · rw [hne (by omega)]; exact hA.last k hk
    · rw [hown, hcall, List.append_assoc, List.take_append_drop]; exact hA.data
    · have h1 := hA.copied_eq
      simp only [List.length_append] at hsize
      rw [SizeT.add_eq (by omega), hown, List.length_append, hlen, h1]
    · rw [hown, List.append_assoc, List.take_append_drop]; exact hsize
  · intro j m stop h
    have h := hshown _ h rfl
    have hj : i ≠ j := by
      rintro rfl
      exact hR.ended i m stop h t l rest copied hl hw
    refine (hR.returned j m stop h).append ?_
    simp [committed, PipeEvent.committedBytes, hj]
  · intro j m stop h u m' rest' copied' hu hm
    obtain ⟨-, rfl, -⟩ := honly hu hm
    exact hR.ended j m stop (hshown _ h rfl) t l rest copied hl hw
  · intro j e h
    obtain ⟨data, hd⟩ := hR.thrown j e (hshown _ h rfl)
    exact ⟨data, (hcall j data).2 hd⟩

/-- Thread `w` is the only one that writes. -/
def OneWriter (w : τ) (_ : PipeState τ ρ π) (a : PipeAction τ) : Prop :=
  ∀ t data token, a = .call t (.write data token) → t = w

namespace PipeEnters

variable {n : Nat} {op : PipeOp} {l? : Option PipeLocal}

theorem still (he : PipeEnters n op evs l?) : ∀ e ∈ evs, e.Still := by
  cases he <;> simp [PipeEvent.Still, PipeEvent.droppedBytes, PipeEvent.committedBytes]

/-- A call of `write` is shown once, under the number of the call. -/
private theorem writeCall (he : PipeEnters n op evs l?) {i : Nat} {data : List Byte} (h : .writeCall i data ∈ evs) :
    i = n ∧ ∀ data', .writeCall i data' ∈ evs → data' = data := by
  cases he <;> simp_all

/-- Only a write of nothing returns before it has locked the mutex. -/
private theorem writeReturn (he : PipeEnters n op evs l?) {i m : Nat} {stop : Bool} (h : .writeReturn i m stop ∈ evs) :
    i = n ∧ m = 0 ∧ l? = none ∧ .writeCall n [] ∈ evs := by
  cases he with
  | writeNothing data token hd =>
    simp only [List.mem_cons, reduceCtorEq, PipeEvent.writeReturn.injEq, List.not_mem_nil, or_false, false_or] at h
    exact ⟨h.1, h.2.1, rfl, by simp [hd]⟩
  | write => simp at h
  | advanceThrow => simp at h
  | _ => cases h

private theorem not_writeThrow (he : PipeEnters n op evs l?) (i : Nat) (e : Exn) : .writeThrow i e ∉ evs := by
  cases he <;> simp

/-- A write begins with all of its data left. -/
theorem writing (he : PipeEnters n op evs l?) {l : PipeLocal} {i : Nat} {rest : List Byte} {copied : Nat}
    (hl : l? = some l) (hw : l.writing? = some (i, rest, copied)) :
    (∃ data token, op = .write data token) ∧ i = n ∧ copied = 0 ∧ .writeCall i rest ∈ evs ∧
      rest.length < SizeT.modulus := by
  cases he with
  | write data token hd =>
    cases hl
    cases hw
    exact ⟨⟨data, token, rfl⟩, rfl, rfl, by simp, data.size_lt⟩
  | writeNothing => cases hl
  | advanceThrow => cases hl
  | read => cases hl; cases hw
  | advance => cases hl; cases hw
  | completeWriter => cases hl; cases hw
  | completeReader => cases hl; cases hw

end PipeEnters

omit [MemoryResource ρ π] [DecidableEq τ] [Fintype τ] in
/-- The record of a new call of `t`. -/
theorem Recorded.call (hR : Recorded w tr s) {t : τ} {op : PipeOp} {l? : Option PipeLocal}
    (he : PipeEnters s.calls op evs l?) (hw : ∀ data token, op = .write data token → t = w)
    (hl : (s'.phase t).local? = l?) (hother : ∀ u, u ≠ t → (s'.phase u).local? = (s.phase u).local?)
    (hcalls : s'.calls = s.calls + 1) (hs : s'.shared = s.shared)
    (hdone : ∀ u e, e ∈ (s'.phase u).doneEvents → e ∈ (s.phase u).doneEvents) : Recorded w (tr ++ evs) s' := by
  have hcom := committed_of_still he.still
  have hcom' := fun i => committed_append_of_nil tr (hcom i)
  have hshown : ∀ e, Shown (tr ++ evs) s' e → Shown tr s e ∨ e ∈ evs := by
    rintro e (h | ⟨u, h⟩)
    · rcases List.mem_append.1 h with h | h
      · exact .inl (.inl h)
      · exact .inr h
    · exact .inl (.inr ⟨u, hdone u e h⟩)
  have hfresh := hR.fresh s.calls (Nat.le_refl _)
  refine ⟨?_, ?_, ?_, ?_, ?_, ?_, ?_⟩
  · rw [dropped_append, dropped_of_still he.still, List.append_nil, hs, hR.stream, hcalls, List.range_succ,
      List.flatMap_append, List.flatMap_congr (fun i _ => hcom' i)]
    simp [hcom', hfresh]
  · intro i hi
    rw [hcom']
    exact hR.fresh i (by omega)
  · intro i data h
    rw [hcom']
    rcases List.mem_append.1 h with h | h
    · obtain ⟨h1, h2, h3⟩ := hR.calls i data h
      refine ⟨by omega, h2, ?_⟩
      intro data' h'
      rcases List.mem_append.1 h' with h' | h'
      · exact h3 data' h'
      · have := (he.writeCall h').1
        omega
    · obtain ⟨rfl, h2⟩ := he.writeCall h
      refine ⟨by omega, by rw [hfresh]; exact List.nil_prefix, ?_⟩
      intro data' h'
      rcases List.mem_append.1 h' with h' | h'
      · have := (hR.calls _ data' h').1
        omega
      · exact h2 data' h'
  · intro u l i rest copied hu hwr
    by_cases hut : u = t
    · subst hut
      obtain ⟨⟨data, token, ho⟩, rfl, rfl, h2, h3⟩ := he.writing (hl.symm.trans hu) hwr
      refine ⟨hw data token ho, by omega, fun j hj => ?_, ?_, ?_, ?_⟩
      · rw [hcom']; exact hR.fresh j (by omega)
      · rw [hcom', hfresh]; exact List.mem_append_right _ h2
      · rw [hcom', hfresh]; rfl
      · rw [hcom', hfresh]; exact h3
    · obtain ⟨h1, h2⟩ := hR.active u l i rest copied ((hother u hut).symm.trans hu) hwr
      exact ⟨h1, h2.append hcom (by omega)⟩
  · intro i n stop h
    rcases hshown _ h with h | h
    · exact (hR.returned i n stop h).append (hcom i)
    · obtain ⟨rfl, rfl, -, hcall⟩ := he.writeReturn h
      exact ⟨[], List.mem_append_right _ hcall, Nat.le_refl _, by rw [hcom', hfresh]; rfl, fun _ => rfl⟩
  · intro i n stop h u l rest copied hu hwr
    by_cases hut : u = t
    · subst hut
      obtain ⟨-, hi, -⟩ := he.writing (hl.symm.trans hu) hwr
      rcases hshown _ h with h | h
      · obtain ⟨data, hd, -⟩ := hR.returned i n stop h
        have := (hR.calls i data hd).1
        omega
      · rw [hl, (he.writeReturn h).2.2.1] at hu
        cases hu
    · have hu := (hother u hut).symm.trans hu
      rcases hshown _ h with h | h
      · exact hR.ended i n stop h u l rest copied hu hwr
      · have h1 := (he.writeReturn h).1
        have h2 := (hR.active u l i rest copied hu hwr).2.lt
        omega
  · intro i e h
    rcases hshown _ h with h | h
    · obtain ⟨data, hd⟩ := hR.thrown i e h
      exact ⟨data, List.mem_append_left _ hd⟩
    · exact absurd h (he.not_writeThrow i e)

variable {a : PipeAction τ}

/-- The record of a piece of `t` that is not that of `complete_reader`. -/
private theorem Recorded.piece (hR : Recorded w tr s) (hm : (pipeline ρ o).Moves s a s' evs)
    (hA : Accounted o s.shared) {t : τ} {z : Bool} {l : PipeLocal} {evs' : List PipeEvent} (ha : a = .run t z)
    (hl : s.phase t = .locked l) (hord : l.Ordered) (hne : l ≠ .completeReader)
    (hevs : evs = ((pipeline ρ o).piece s l z).events ++ evs')
    (hd : ∀ e ∈ evs', e ∈ ((pipeline ρ o).piece s l z).next.doneEvents) (hcalls : s'.calls = s.calls) :
    Recorded w (tr ++ evs) s' := by
  have hlt : (s.phase t).local? = some l := Monitor.local?_of_locked hl
  subst ha
  obtain ⟨hs, hown, hother⟩ := hm.of_piece hl
  -- an event that ends a call was shown before or ends this call
  have hshown : ∀ e, Shown (tr ++ evs) s' e →
      Shown tr s e ∨ e ∈ ((pipeline ρ o).piece s l z).events ∨ e ∈ ((pipeline ρ o).piece s l z).next.doneEvents := by
    intro e he
    rcases hm.shown he with he | ⟨t', op, h', -⟩ | ⟨t', z', l', h', hl', he⟩
    · exact .inl he
    · cases h'
    · cases h'
      rw [hl] at hl'
      cases hl'
      exact .inr he
  rcases stream_piece hA hord hne (s.stop l.token) z with ⟨i, rest, copied, n, hc⟩ | hc
  · obtain ⟨l', hn, hw'⟩ := hc.after
    have hnil : evs' = [] := by
      rw [List.eq_nil_iff_forall_not_mem]
      intro e he
      have := hd e he
      rw [show ((pipeline ρ o).piece s l z).next = .hold l' from hn] at this
      cases this
    have hev : evs = [.commit i (rest.take n)] := by
      rw [hevs, hnil, List.append_nil]
      exact hc.events
    rw [hev] at hshown ⊢
    refine hR.chunk hlt hc.before hc.le (by rw [hown]; exact congrArg Next.local? hn) hw' hother hcalls
      (by rw [hs]; exact hc.bytes) ?_
    intro e he hend
    rcases hshown e he with h | h | h
    · exact h
    · rw [show ((pipeline ρ o).piece s l z).events = _ from hc.events, List.mem_singleton] at h
      rw [h] at hend
      cases hend
    · rw [show ((pipeline ρ o).piece s l z).next = .hold l' from hn] at h
      cases h
  · have hstill : ∀ e ∈ evs', e.Still := fun e he => still_of_isEnd (doneEvents_isEnd o _ _ _ _ e (hd e he))
    refine hR.still ?_ ?_ hcalls ?_ ?_ ?_
    · intro i
      rw [hevs, committed_append, committed_of_still hstill, List.append_nil]
      exact hc.commits i
    · intro i data h
      rw [hevs] at h
      rcases List.mem_append.1 h with h | h
      · exact (hc.events _ h).2 i data rfl
      · cases doneEvents_isEnd o _ _ _ _ _ (hd _ h)
    · rw [hevs, dropped_append, dropped_of_still hstill, List.append_nil, hs]
      exact hc.bytes
    · intro u m i rest copied hu hwr
      by_cases hut : u = t
      · subst hut
        rcases hc.after m (hown.symm.trans hu) with h | h
        · exact ⟨l, hlt, by rw [← h]; exact hwr⟩
        · rw [h] at hwr; cases hwr
      · exact ⟨m, (hother u hut).symm.trans hu, hwr⟩
    · intro e he hend
      rcases hshown e he with h | h | h
      · exact .inl h
      · rw [(hc.events e h).1] at hend; cases hend
      · exact .inr ⟨t, l, hlt, hown.trans (Monitor.local?_of_mem_doneEvents h), hc.ends e h⟩

theorem recorded_of_exec {m : ρ}
    (h : ((pipeline ρ o).machine τ).Exec (OneWriter w) (State.init (Pipe.new m)) tr s) :
    s.shared.readerCompleted = true ∨ Recorded w tr s := by
  induction h with
  | nil =>
    right
    refine ⟨by simp [dropped, State.init, Pipe.new], fun _ _ => rfl, ?_, ?_, ?_, ?_, ?_⟩
    · intro i data h; cases h
    · intro t l i rest copied h; cases h
    · rintro i n stop (h | ⟨t, h⟩) <;> cases h
    · rintro i n stop (h | ⟨t, h⟩) <;> cases h
    · rintro i e (h | ⟨t, h⟩) <;> cases h
  | @snoc tr evs s s' a h hok hs ih =>
    have hm := Monitor.moves_of_step hs
    obtain ⟨hacc, hord⟩ := accounted_of_exec h
    have hend := Monitor.doneEvents_of_exec h (fun l y stop z _ _ _ _ => doneEvents_isEnd o l y stop z)
    have stays : s.shared.readerCompleted = true → s'.shared.readerCompleted = true := by
      intro hr
      rcases hm.shared_eq with ⟨he, -⟩ | ⟨t, z, l, -, -, he⟩ <;> rw [he]
      · exact hr
      · exact readerCompleted_mono _ _ _ hr
    rcases ih with hr | hR
    · exact .inl (stays hr)
    rcases hacc with hr | hA
    · exact .inl (stays hr)
    rcases hm.events_eq with ⟨t, op, rfl, hout, rfl, hcalls⟩ | ⟨t, z, l, evs', ha, hl, hevs, hd, hcalls⟩ |
      ⟨hcall, hrun, hd, hcalls⟩
    · right
      obtain ⟨hsh, hown, hother⟩ := hm.of_call
      refine hR.call (pipe_enters op s.calls) (fun data token ho => hok t data token (by rw [ho])) hown hother hcalls
        hsh ?_
      intro u e he
      rcases hm.mem_doneEvents he with he | ⟨z, l, -, -, -, ha, -⟩
      · exact he
      · cases ha
    · by_cases hne : l = .completeReader
      · left
        subst ha hne
        rw [(hm.of_piece hl).1]
        rfl
      · exact .inr (hR.piece hm hA ha hl (hord t l (Monitor.local?_of_locked hl)) hne hevs hd hcalls)
    · right
      have hevs : ∀ e ∈ evs, e.isEnd = true := by
        intro e he
        obtain ⟨t, ht⟩ := hd e he
        exact hend t e ht
      have hstill : ∀ e ∈ evs, e.Still := fun e he => still_of_isEnd (hevs e he)
      refine hR.still (committed_of_still hstill) ?_ hcalls ?_ ?_ ?_
      · intro i data he
        cases hevs _ he
      · rcases hm.shared_eq with ⟨he, -⟩ | ⟨t, z, l, ha, hl, -⟩
        · rw [he, dropped_of_still hstill, List.nil_append]
        · exact absurd hl (hrun t z l ha)
      · intro t l i rest copied hl hw
        rcases hm.local_eq hl with ⟨hl, -⟩ | ⟨op, ha, -⟩ | ⟨z, l₀, ha, hl₀, -⟩
        · exact ⟨l, hl, hw⟩
        · exact absurd ha (hcall t op)
        · exact absurd hl₀ (hrun t z l₀ ha)
      · intro e he _
        rcases hm.shown he with he | ⟨t, op, ha, -⟩ | ⟨t, z, l₀, ha, hl₀, -⟩
        · exact .inl he
        · exact absurd ha (hcall t op)
        · exact absurd hl₀ (hrun t z l₀ ha)

theorem recorded_of_open {m : ρ}
    (h : ((pipeline ρ o).machine τ).Exec (OneWriter w) (State.init (Pipe.new m)) tr s)
    (hr : s.shared.readerCompleted = false) : Recorded w tr s := by
  rcases recorded_of_exec h with hc | hR
  · rw [hr] at hc
    cases hc
  · exact hR

/-! ### Stream integrity -/

/-- What neither begins nor ends a call is shown by a piece. -/
theorem shown_by_piece {ok : PipeState τ ρ π → PipeAction τ → Prop} {m : ρ} {e : PipeEvent}
    (h : ((pipeline ρ o).machine τ).Exec ok (State.init (Pipe.new m)) tr s) (hm : (pipeline ρ o).Moves s a s' evs)
    (he : e ∈ evs) (hend : e.isEnd = false) (hcall : ∀ i data, e ≠ .writeCall i data) :
    ∃ t z l, a = .run t z ∧ s.phase t = .locked l ∧ e ∈ ((pipeline ρ o).piece s l z).events ∧
      (((pipeline ρ o).piece s l z).next.doneEvents = [] → evs = ((pipeline ρ o).piece s l z).events) := by
  rcases hm.mem_events he with ⟨t, op, -, he⟩ | ⟨t, z, l, rfl, hl, hp | hp⟩ | ⟨t, he⟩
  · rcases enter_events he with ⟨data, rfl⟩ | ⟨_, _, rfl⟩ | ⟨_, rfl⟩
    · exact absurd rfl (hcall s.calls data)
    · cases hend
    · cases hend
  · exact ⟨t, z, l, rfl, hl, hp, hm.events_of_quiet_piece hl⟩
  · rw [doneEvents_isEnd o _ _ _ _ _ hp] at hend
    cases hend
  · rw [Monitor.doneEvents_of_exec h (fun l y stop z _ _ _ _ => doneEvents_isEnd o l y stop z) t _ he] at hend
    cases hend

/-- A step that shows a successful read is that read. -/
theorem readReturn_step {ok : PipeState τ ρ π → PipeAction τ → Prop} {m : ρ} {buffer : SegmentedByteView}
    {completed : Bool} (h : ((pipeline ρ o).machine τ).Exec ok (State.init (Pipe.new m)) tr s)
    (hm : (pipeline ρ o).Moves s a s' evs) (he : .readReturn buffer completed ∈ evs) :
    buffer = makeReadableView s.shared.segments ∧ completed = s.shared.writerCompleted ∧
      evs = [.readReturn buffer completed] ∧ ∃ waiting, s'.shared =
        { s.shared with readerWaiting := waiting, hasPendingRead := true, pendingReadSize := buffer.size } := by
  obtain ⟨t, z, l, rfl, hl, hp, honly⟩ := shown_by_piece h hm he rfl nofun
  obtain ⟨hb, hc, waiting, hr⟩ := readReturn_piece hp
  have hr' : (pipeline ρ o).piece s l z = _ := hr
  refine ⟨hb, hc, ?_, waiting, ?_⟩
  · rw [honly (by rw [hr']; rfl), hr']
  · rw [(hm.of_piece hl).1, hr']

/-- As long as the reader is not completed: what was dropped followed by what is readable is what the writes have
committed, in the order of the calls; every write has committed a prefix of its data, one that has returned `n` exactly
the first `n` bytes, and all of them if there was no stop request; and a successful read returns what is readable. -/
theorem stream_integrity {m : ρ}
    (h : ((pipeline ρ o).machine τ).Exec (OneWriter w) (State.init (Pipe.new m)) tr s)
    (hr : s.shared.readerCompleted = false) :
    dropped tr ++ readableBytes s.shared.segments = (List.range s.calls).flatMap (committed tr) ∧
    (∀ i data, .writeCall i data ∈ tr → committed tr i <+: data) ∧
    (∀ i n stop, .writeReturn i n stop ∈ tr → ∃ data, .writeCall i data ∈ tr ∧ n ≤ data.length ∧
      committed tr i = data.take n ∧ (stop = false → n = data.length)) ∧
    (∀ i e, .writeThrow i e ∈ tr → ∃ data, .writeCall i data ∈ tr ∧ committed tr i <+: data) ∧
    ∀ a s' evs buffer completed, ((pipeline ρ o).machine τ).step s a = some (s', evs) →
      .readReturn buffer completed ∈ evs →
      buffer.flatten = readableBytes s.shared.segments ∧ s'.shared.segments = s.shared.segments := by
  have hR := recorded_of_open h hr
  refine ⟨hR.stream, fun i data hd => (hR.calls i data hd).2.1, fun i n stop hd => hR.returned i n stop (.inl hd), ?_, ?_⟩
  · intro i e he
    obtain ⟨data, hd⟩ := hR.thrown i e (.inl he)
    exact ⟨data, hd, (hR.calls i data hd).2.1⟩
  · intro a s' evs buffer completed hs he
    obtain ⟨hb, -, -, waiting, hs'⟩ := readReturn_step h (Monitor.moves_of_step hs) he
    rw [hb, flatten_makeReadableView, hs']
    exact ⟨rfl, rfl⟩

/-- Thread `0` writes five bytes and is paused after four; thread `1` reads and consumes three, and thread `0` goes on. -/
def writeInTwoTurns : List (PipeAction (Fin 2)) :=
  [.call 0 (.write .oneToFive none),
    .run 0 false, .run 0 false, .run 0 false, .run 0 false, .run 0 false, .run 0 false,
    .run 0 false, .run 0 false, .run 0 false,
    .call 1 (.readAtLeast 0 none), .run 1 false, .run 1 false, .run 1 false, .run 1 false,
    .call 1 (.advance ⟨3, true⟩ ⟨4, true⟩), .run 1 false, .run 1 false, .notify 1 (some 0),
    .run 0 false, .run 0 false, .run 0 false, .run 0 false]

private def isOneWriter : PipeAction (Fin 2) → Bool
  | .call t (.write _ _) => decide (t = 0)
  | _ => true

theorem stream_integrity_writeInTwoTurns :
    ∃ tr, ∃ s : PipeState (Fin 2) FixedPoolResource Nat,
      ((pipeline FixedPoolResource .small).machine (Fin 2)).Exec (OneWriter 0)
        (State.init (Pipe.new (.make .small))) tr s ∧
      s.shared.readerCompleted = false ∧ dropped tr = [1, 2, 3] ∧ committed tr 0 = [1, 2, 3, 4, 5] ∧
      dropped tr ++ readableBytes s.shared.segments = (List.range s.calls).flatMap (committed tr) := by
  obtain ⟨tr, s, h, hc⟩ := Machine.exists_exec_of_run ((pipeline FixedPoolResource .small).machine (Fin 2))
    (OneWriter 0) (State.init (Pipe.new (.make .small)))
    (fun _ => isOneWriter) writeInTwoTurns
    (fun tr s => decide (s.shared.readerCompleted = false ∧ dropped tr = [1, 2, 3] ∧
      committed tr 0 = [1, 2, 3, 4, 5]))
    (by rintro s a ha t data token rfl; exact of_decide_eq_true ha) (by decide)
  obtain ⟨hr, hd, hcom⟩ := of_decide_eq_true hc
  exact ⟨tr, s, h, hr, hd, hcom, (stream_integrity h hr).1⟩

end Xtd
