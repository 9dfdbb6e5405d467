import Xtd.Logging.NativeAttempts

/-!
# What the native transport puts on the wire

The bytes that `send` hands over are a beginning of the request, on one connection.  The answer is awaited exactly when
the request is complete, and `send` comes to its end unless the system interrupts it, or keeps it reading, for ever.
-/

namespace Xtd

open Concurrency Posix

namespace OtelNativeTransport

variable {t : OtelNativeTransport} {jsonBody : List Byte} {o₀ o : Os} {g : SendStage} {tr : List (Call × Answer)}

/-- The request. -/
def request (t : OtelNativeTransport) (jsonBody : List Byte) : List Byte := (t.parts jsonBody).flatten

def IsSend (k : Call) : Prop := ∃ fd data, k = .send fd data

def IsRecv (k : Call) : Prop := ∃ fd size, k = .recv fd size

/-- The system refuses to take more: `send_all` fails. -/
def Refuses (e : Call × Answer) : Prop :=
  IsSend e.1 ∧ ((∀ n, 0 < n → e.2 ≠ .number n) ∧ e.2 ≠ .failed .EINTR)

theorem not_isRecv_send (fd : Fd) (data : List Byte) : ¬ IsRecv (.send fd data) := by
  rintro ⟨fd', size, h⟩
  cases h

/-- The system answers `send` with a failure that ends it. -/
theorem refuses_of_answer (fd : Fd) (data : List Byte) {r : Answer} (hn : ∀ n, r ≠ .number n) (he : r ≠ .failed .EINTR) :
    Refuses (.send fd data, r) := ⟨⟨fd, data, rfl⟩, fun n _ => hn n, he⟩

/-- Data is sent on the descriptor alone. -/
def SentOn (fd : Fd) (tr : List (Call × Answer)) : Prop := ∀ e ∈ tr, ∀ fd' data, e.1 = .send fd' data → fd' = fd

/-- What was sent, by stage. -/
inductive Wire (request : List Byte) (tr : List (Call × Answer)) : SendStage → Prop
  | unconnected (g : SendStage) (hg : connected g = false) (hout : output tr = [])
      (hnone : ∀ e ∈ tr, ¬ IsSend e.1 ∧ ¬ IsRecv e.1) (hattempts : Attempts tr g) : Wire request tr g
  | sending (fd : Fd) (data : List Byte) (later : List (List Byte)) (hne : data ≠ [])
      (hout : output tr ++ (data ++ later.flatten) = request) (hon : SentOn fd tr) (hno : ∀ e ∈ tr, ¬ IsRecv e.1) :
      Wire request tr (.sending fd data later)
  | discarding (fd : Fd) (hout : output tr = request) (hon : SentOn fd tr) : Wire request tr (.discarding fd)
  | answered (fd : Fd) (g : SendStage) (hg : g = .closing fd ∨ g = .finished) (hout : output tr = request)
      (hon : SentOn fd tr) (hrecv : ∃ e ∈ tr, IsRecv e.1) : Wire request tr g
  | refused (fd : Fd) (g : SendStage) (hg : g = .closing fd ∨ g = .finished) (rest : List Byte) (hne : rest ≠ [])
      (hout : output tr ++ rest = request) (hon : SentOn fd tr) (hno : ∀ e ∈ tr, ¬ IsRecv e.1)
      (hrefuse : ∃ e ∈ tr, Refuses e) : Wire request tr g

private theorem sentOn_append {fd : Fd} {e : Call × Answer} (h : SentOn fd tr)
    (he : ∀ fd' data, e.1 = .send fd' data → fd' = fd) : SentOn fd (tr ++ [e]) := by
  intro e' he' fd' data hs
  rcases List.mem_append.1 he' with he' | he'
  · exact h e' he' fd' data hs
  · rw [List.mem_singleton.1 he'] at hs
    exact he fd' data hs

private theorem forall_mem_concat {p : Call × Answer → Prop} {e : Call × Answer} (h : ∀ e ∈ tr, p e) (he : p e) :
    ∀ e' ∈ tr ++ [e], p e' := by
  intro e' he'
  rcases List.mem_append.1 he' with he' | he'
  · exact h e' he'
  · rw [List.mem_singleton.1 he']
    exact he

/-- The parts still to be sent are taken up. -/
private theorem wire_sendParts {request : List Byte} {fd : Fd} {parts : List (List Byte)}
    (hout : output tr ++ parts.flatten = request) (hon : SentOn fd tr) (hno : ∀ e ∈ tr, ¬ IsRecv e.1) :
    Wire request tr (SendStage.sendParts fd parts) := by
  rcases SendStage.sendParts_cases fd parts with ⟨h, hnil⟩ | ⟨data, later, h, hne, hflat⟩
  · rw [h]
    rw [hnil, List.append_nil] at hout
    exact .discarding fd hout hon
  · rw [h]
    rw [hflat] at hout
    exact .sending fd data later hne hout hon hno

/-- A call on the way to the connection. -/
private theorem wire_unconnected {request : List Byte} {k : Call} {r : Answer} {g' : SendStage} (hout : output tr = [])
    (hnone : ∀ e ∈ tr, ¬ IsSend e.1 ∧ ¬ IsRecv e.1) (hk : transferred (k, r) = [] ∧ ¬ IsSend k ∧ ¬ IsRecv k)
    (hattempts : Attempts (tr ++ [(k, r)]) g') (hg : connected g' = false) : Wire request (tr ++ [(k, r)]) g' := by
  obtain ⟨h1, h2, h3⟩ := hk
  refine .unconnected g' hg ?_ (forall_mem_concat hnone ⟨h2, h3⟩) hattempts
  rw [output_append, output_singleton, hout, h1]
  rfl

private theorem connected_nextAddress (rest : List Address) : connected (.nextAddress rest) = false := by
  cases rest <;> rfl

/-- A call before the request is sent. -/
private theorem wire_connecting {parts : List (List Byte)} {k : Call} {r : Answer} (hg : connected g = false)
    (hout : output tr = []) (hnone : ∀ e ∈ tr, ¬ IsSend e.1 ∧ ¬ IsRecv e.1) (hattempts : Attempts tr g)
    (hk : g.call t = some k) :
    Wire parts.flatten (tr ++ [(k, r)]) (g.see parts r) := by
  have hquiet : transferred (k, r) = [] ∧ ¬ IsSend k ∧ ¬ IsRecv k := by
    refine ⟨?_, ?_, ?_⟩
    · cases g <;> cases hg <;> cases hk <;> rfl
    · rintro ⟨fd, data, rfl⟩
      cases g <;> cases hg <;> cases hk
    · rintro ⟨fd, size, rfl⟩
      cases g <;> cases hg <;> cases hk
  have hafter : connected (g.see parts r) = false → Wire parts.flatten (tr ++ [(k, r)]) (g.see parts r) :=
    wire_unconnected hout hnone hquiet (attempts_step parts hattempts hg hk)
  cases g with
  | sending => cases hg
  | discarding => cases hg
  | closing => cases hg
  | finished => cases hk
  | givingUp fd rest => exact hafter (connected_nextAddress rest)
  | resolving =>
    cases r with
    | addresses list => exact hafter (connected_nextAddress list)
    | _ => exact hafter rfl
  | opening address rest =>
    cases r with
    | number fd => exact hafter rfl
    | _ => exact hafter (connected_nextAddress rest)
  | freeing fd =>
    cases fd with
    | none => exact hafter rfl
    | some fd =>
      have hno := forall_mem_concat (e := (k, r)) hnone hquiet.2
      refine wire_sendParts ?_ (fun e he fd' data hs => absurd ⟨fd', data, hs⟩ (hno e he).1) (fun e he => (hno e he).2)
      rw [output_append, output_singleton, hout, hquiet.1]
      rfl
  | _ =>
    refine hafter ?_
    cases r with
    | number n =>
      simp only [SendStage.see]
      first | rfl | (split <;> rfl)
    | failed e => cases e <;> rfl
    | _ => rfl

/-- A call of `send_all`. -/
private theorem wire_sending {parts : List (List Byte)} {fd : Fd} {data : List Byte} {later : List (List Byte)}
    {r : Answer} {o' : Os} (hne : data ≠ []) (hout : output tr ++ (data ++ later.flatten) = parts.flatten)
    (hon : SentOn fd tr) (hno : ∀ e ∈ tr, ¬ IsRecv e.1) (hr : os.answer o (.send fd data) r = some o') :
    Wire parts.flatten (tr ++ [(.send fd data, r)]) ((SendStage.sending fd data later).see parts r) := by
  have hon' : SentOn fd (tr ++ [(.send fd data, r)]) := by
    refine sentOn_append hon ?_
    rintro fd' data' ⟨⟩
    rfl
  have hno' : ∀ e ∈ tr ++ [(.send fd data, r)], ¬ IsRecv e.1 := forall_mem_concat hno (not_isRecv_send fd data)
  have hrest : data ++ later.flatten ≠ [] := by simp [hne]
  -- a call that hands over nothing
  have hsame : transferred (.send fd data, r) = [] →
      output (tr ++ [(.send fd data, r)]) ++ (data ++ later.flatten) = parts.flatten := by
    intro hnil
    rw [output_append, output_singleton, hnil, List.append_nil]
    exact hout
  have hfails : transferred (.send fd data, r) = [] → Refuses (.send fd data, r) →
      Wire parts.flatten (tr ++ [(.send fd data, r)]) (.closing fd) := by
    intro hnil href
    exact .refused fd _ (.inl rfl) _ hrest (hsame hnil) hon' hno' ⟨_, List.mem_append_right _ (List.mem_singleton.2 rfl), href⟩
  cases r with
  | number sent =>
    obtain ⟨hle, -⟩ := le_of_transfer (.inr rfl) hr
    simp only [SendStage.see]
    by_cases hpos : 0 < sent
    · rw [if_pos hpos]
      refine wire_sendParts ?_ hon' hno'
      rw [output_append, output_singleton, List.append_assoc, ← hout]
      congr 1
      show data.take sent ++ (data.drop sent ++ later.flatten) = _
      rw [← List.append_assoc, List.take_append_drop]
    · rw [if_neg hpos]
      have hzero : sent = 0 := by omega
      subst hzero
      refine hfails rfl ⟨⟨fd, data, rfl⟩, ?_, ?_⟩
      · rintro n hn ⟨⟩
        exact hpos hn
      · intro h
        cases h
  | failed e =>
    cases e with
    | EINTR => exact .sending fd data later hne (hsame rfl) hon' hno'
    | _ => exact hfails rfl (refuses_of_answer fd data (fun n h => by cases h) (fun h => by cases h))
  | _ => exact hfails rfl (refuses_of_answer fd data (fun n h => by cases h) (fun h => by cases h))

private theorem wire_step {parts : List (List Byte)} {k : Call} {r : Answer} {o' : Os}
    (h : Wire parts.flatten tr g) (hk : g.call t = some k) (hr : os.answer o k r = some o') :
    Wire parts.flatten (tr ++ [(k, r)]) (g.see parts r) := by
  cases h with
  | unconnected _ hg hout hnone hattempts => exact wire_connecting hg hout hnone hattempts hk
  | sending fd data later hne hout hon hno =>
    cases hk
    exact wire_sending hne hout hon hno hr
  | discarding fd hout hon =>
    cases hk
    have hout' : output (tr ++ [(.recv fd 4096, r)]) = parts.flatten := by
      rw [output_append, output_singleton, hout]
      exact List.append_nil _
    have hon' : SentOn fd (tr ++ [(.recv fd 4096, r)]) := sentOn_append hon (fun fd' data h => by cases h)
    have hclose : Wire parts.flatten (tr ++ [(.recv fd 4096, r)]) (.closing fd) :=
      .answered fd _ (.inl rfl) hout' hon' ⟨_, List.mem_append_right _ (List.mem_singleton.2 rfl), fd, 4096, rfl⟩
    cases r with
    | bytes received =>
      simp only [SendStage.see]
      split
      · exact hclose
      · exact .discarding fd hout' hon'
    | failed e =>
      cases e with
      | EINTR => exact .discarding fd hout' hon'
      | _ => exact hclose
    | _ => exact hclose
  | answered fd _ hg hout hon hrecv =>
    rcases hg with rfl | rfl
    · cases hk
      obtain ⟨e, he, hrecv⟩ := hrecv
      refine .answered fd _ (.inr rfl) ?_ (sentOn_append hon (fun fd' data h => by cases h)) ⟨e, List.mem_append_left _ he, hrecv⟩
      rw [output_append, output_singleton, hout]
      exact List.append_nil _
    · cases hk
  | refused fd _ hg rest hne hout hon hno hrefuse =>
    rcases hg with rfl | rfl
    · cases hk
      obtain ⟨e, he, hrefuse⟩ := hrefuse
      have hno' : ¬ IsRecv (.close fd) := by
        rintro ⟨fd', size, h⟩
        cases h
      refine .refused fd _ (.inr rfl) rest hne ?_ (sentOn_append hon (fun fd' data h => by cases h))
        (forall_mem_concat hno hno') ⟨e, List.mem_append_left _ he, hrefuse⟩
      rw [output_append, output_singleton]
      exact (congrArg (· ++ rest) (List.append_nil _)).trans hout
    · cases hk

private theorem wire_of_exec (h : ((t.send jsonBody).against os).Exec Machine.Any (.resolving, o₀) tr (g, o)) :
    Wire (t.request jsonBody) tr g := by
  refine Client.invariant (I := fun tr g _ => Wire (t.request jsonBody) tr g) h (.unconnected _ rfl rfl (List.forall_mem_nil _) rfl) ?_
  intro tr g o k r o' hI hk hr
  exact wire_step hI hk hr

/-- An answer is awaited only behind the whole request. -/
theorem output_of_answered (h : ((t.send jsonBody).against os).Exec Machine.Any (.resolving, o₀) tr (g, o))
    (hrecv : ∃ e ∈ tr, IsRecv e.1) : output tr = t.request jsonBody := by
  obtain ⟨e, he, hrecv⟩ := hrecv
  cases wire_of_exec h with
  | unconnected _ _ _ hnone _ => exact absurd hrecv (hnone e he).2
  | sending _ _ _ _ _ _ hno => exact absurd hrecv (hno e he)
  | discarding _ hout _ => exact hout
  | answered _ _ _ hout _ _ => exact hout
  | refused _ _ _ _ _ _ _ hno _ => exact absurd hrecv (hno e he)

/-! ### How long it takes -/

/-- The calls that an answer brings with it: the attempts for an address, or the same call again. -/
def again : Call × Answer → Nat
  | (.getaddrinfo _ _, .addresses list) => 8 * list.length
  | (.pollWritable _ _, .failed .EINTR) | (.send _ _, .failed .EINTR) | (.recv _ _, .failed .EINTR) => 1
  | (.recv _ _, .bytes (_ :: _)) => 1
  | _ => 0

/-- The calls still to come if every answer lets `send` go on, for a request of length `n`. -/
def left (n : Nat) : SendStage → Nat
  | .resolving => n + 7
  | .opening _ rest => 8 * rest.length + n + 14
  | .gettingFlags _ _ rest => 8 * rest.length + n + 13
  | .settingFlags _ _ _ rest => 8 * rest.length + n + 12
  | .connecting _ _ _ rest => 8 * rest.length + n + 11
  | .polling _ _ rest => 8 * rest.length + n + 10
  | .gettingError _ _ rest => 8 * rest.length + n + 9
  | .restoringFlags _ _ rest => 8 * rest.length + n + 8
  | .givingUp _ rest => 8 * rest.length + n + 7
  | .settingSendTimeout _ => n + 5
  | .settingReceiveTimeout _ => n + 4
  | .freeing (some _) => n + 3
  | .freeing none => 1
  | .sending _ data later => (data ++ later.flatten).length + 2
  | .discarding _ => 2
  | .closing _ => 1
  | .finished => 0

private theorem left_nextAddress (n : Nat) (rest : List Address) :
    left n (.nextAddress rest) ≤ 8 * rest.length + n + 6 := by
  cases rest with
  | nil => simp [SendStage.nextAddress, left]
  | cons address rest =>
    simp only [SendStage.nextAddress, left, List.length_cons]
    omega

private theorem left_sendParts (n : Nat) (fd : Fd) (parts : List (List Byte)) :
    left n (.sendParts fd parts) = parts.flatten.length + 2 := by
  rcases SendStage.sendParts_cases fd parts with ⟨h, hnil⟩ | ⟨data, later, h, -, hflat⟩
  · rw [h, hnil]
    rfl
  · rw [h, hflat]
    rfl

private theorem left_step (parts : List (List Byte)) {k : Call} {r : Answer} {o' : Os} (hk : g.call t = some k)
    (hr : os.answer o k r = some o') :
    left parts.flatten.length (g.see parts r) + 1 ≤ left parts.flatten.length g + again (k, r) := by
  generalize hn : parts.flatten.length = n
  cases g with
  | finished => cases hk
  | resolving =>
    cases hk
    cases r with
    | addresses list =>
      have hle := left_nextAddress n list
      show left n (.nextAddress list) + 1 ≤ n + 7 + 8 * list.length
      omega
    | _ =>
      show 0 + 1 ≤ n + 7 + _
      omega
  | opening address rest =>
    have hle := left_nextAddress n rest
    cases r with
    | number fd =>
      show 8 * rest.length + n + 13 + 1 ≤ 8 * rest.length + n + 14 + _
      omega
    | _ =>
      show left n (.nextAddress rest) + 1 ≤ 8 * rest.length + n + 14 + _
      omega
  | givingUp fd rest =>
    have hle := left_nextAddress n rest
    show left n (.nextAddress rest) + 1 ≤ 8 * rest.length + n + 7 + _
    omega
  | polling fd originalFlags rest =>
    cases hk
    cases r with
    | number m =>
      simp only [SendStage.see]
      split <;> simp only [left] <;> omega
    | failed e => cases e <;> simp only [SendStage.see, left, again] <;> omega
    | _ => simp only [SendStage.see, left]; omega
  | gettingError fd originalFlags rest =>
    cases r with
    | number m =>
      simp only [SendStage.see]
      split <;> simp only [left] <;> omega
    | _ => simp only [SendStage.see, left]; omega
  | freeing fd =>
    cases fd with
    | none =>
      show 0 + 1 ≤ 1 + _
      omega
    | some fd =>
      show left n (.sendParts fd parts) + 1 ≤ n + 3 + _
      rw [left_sendParts, hn]
      omega
  | sending fd data later =>
    cases hk
    cases r with
    | number sent =>
      obtain ⟨hle, -⟩ := le_of_transfer (.inr rfl) hr
      simp only [SendStage.see]
      split
      · rw [left_sendParts]
        simp only [left, List.flatten_cons, List.length_append, List.length_drop]
        omega
      · simp only [left]
        omega
    | failed e => cases e <;> simp only [SendStage.see, left, again] <;> omega
    | _ => simp only [SendStage.see, left]; omega
  | discarding fd =>
    cases hk
    cases r with
    | bytes received =>
      cases received with
      | nil => simp [SendStage.see, left, again]
      | cons b received => simp [SendStage.see, left, again]
    | failed e => cases e <;> simp only [SendStage.see, left, again] <;> omega
    | _ => simp only [SendStage.see, left]; omega
  | connecting fd originalFlags address rest =>
    cases r with
    | failed e => cases e <;> simp only [SendStage.see, left] <;> omega
    | _ => simp only [SendStage.see, left]; omega
  | _ => cases r <;> simp only [SendStage.see, left] <;> omega

end OtelNativeTransport

end Xtd
