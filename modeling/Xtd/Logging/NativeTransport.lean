import Xtd.Posix.Descriptors
import Xtd.Logging.Endpoint

/-!
# The native transport

`send` of `otel_native_transport` (`native.h`) between its system calls: the addresses of the host are tried one after the
other, each with a connection that is given a second to come about; the request is sent in three parts, and what the other
side answers is read and dropped.
-/

namespace Xtd

open Concurrency Posix

/-- `build_request_prefix`. -/
def buildRequestPrefix (e : Endpoint) (o : OtelSinkOpts) : List Byte :=
  ascii "POST " ++ e.path ++ ascii " HTTP/1.1\r\n" ++
    (ascii "Host: " ++ hostHeaderFor e.host e.ipv6 e.port ++ ascii "\r\n") ++
    (if o.authToken.isEmpty then [] else ascii "Authorization: " ++ o.authToken ++ ascii "\r\n") ++
    (ascii "stream-name: " ++ o.serviceNamespace ++ ascii "\r\n") ++
    ascii "Content-Type: application/json\r\n" ++ ascii "Connection: close\r\n"

/-- The members of the transport. -/
structure OtelNativeTransport where
  endpoint : Endpoint
  requestPrefix : List Byte

/-- The constructor. -/
def OtelNativeTransport.new (o : OtelSinkOpts) : Except Exn OtelNativeTransport := do
  let endpoint ← parseEndpoint o.endpoint
  return ⟨endpoint, buildRequestPrefix endpoint o⟩

/-- The last header and the end of the head. -/
def contentLength (jsonBody : List Byte) : List Byte :=
  ascii "Content-Length: " ++ ascii (toString jsonBody.length) ++ ascii "\r\n\r\n"

/-- Where `send` is: in the loop of `connect_to_host`, with the addresses still to try, in `send_all`, with what is left
of the data and of the later parts, or in `discard_response`. -/
inductive SendStage
  | resolving
  | opening (address : Address) (rest : List Address)
  | gettingFlags (fd : Fd) (address : Address) (rest : List Address)
  | settingFlags (fd : Fd) (originalFlags : Nat) (address : Address) (rest : List Address)
  | connecting (fd : Fd) (originalFlags : Nat) (address : Address) (rest : List Address)
  | polling (fd : Fd) (originalFlags : Nat) (rest : List Address)
  | gettingError (fd : Fd) (originalFlags : Nat) (rest : List Address)
  | restoringFlags (fd : Fd) (originalFlags : Nat) (rest : List Address)
  | givingUp (fd : Fd) (rest : List Address)
  | settingSendTimeout (fd : Fd)
  | settingReceiveTimeout (fd : Fd)
  | freeing (fd : Option Fd)
  | sending (fd : Fd) (data : List Byte) (later : List (List Byte))
  | discarding (fd : Fd)
  | closing (fd : Fd)
  | finished

namespace SendStage

/-- The head of the loop over the addresses. -/
def nextAddress : List Address → SendStage
  | [] => .freeing none
  | address :: rest => .opening address rest

/-- `send_all` of one part after the other; there is nothing to do for an empty part. -/
def sendParts (fd : Fd) : List (List Byte) → SendStage
  | [] => .discarding fd
  | data :: later => if data.isEmpty then sendParts fd later else .sending fd data later

def call (t : OtelNativeTransport) : SendStage → Option Call
  | resolving => some (.getaddrinfo (t.endpoint.host.takeWhile fun b => b ≠ 0) (ascii (toString t.endpoint.port)))
  | opening address _ => some (.socket address.family address.socktype address.protocol)
  | gettingFlags fd _ _ => some (.getFlags fd)
  | settingFlags fd originalFlags _ _ => some (.setFlags fd (originalFlags ||| O_NONBLOCK))
  | connecting fd _ address _ => some (.connect fd address.addr)
  | polling fd _ _ => some (.pollWritable fd 1000)
  | gettingError fd _ _ => some (.getSocketError fd)
  | restoringFlags fd originalFlags _ => some (.setFlags fd originalFlags)
  | givingUp fd _ | closing fd => some (.close fd)
  | settingSendTimeout fd => some (.setTimeout fd .sendTimeout 3)
  | settingReceiveTimeout fd => some (.setTimeout fd .receiveTimeout 3)
  | freeing _ => some .freeaddrinfo
  | sending fd data _ => some (.send fd data)
  | discarding fd => some (.recv fd 4096)
  | finished => none

/-- How `send` goes on; `parts` are the parts of the request. -/
def see (parts : List (List Byte)) : SendStage → Answer → SendStage
  | resolving, .addresses list => nextAddress list
  | resolving, _ => finished
  | opening address rest, .number fd => .gettingFlags fd address rest
  | opening _ rest, _ => nextAddress rest
  | gettingFlags fd address rest, .number originalFlags => .settingFlags fd originalFlags address rest
  | gettingFlags fd _ rest, _ => .givingUp fd rest
  | settingFlags fd originalFlags address rest, .number _ => .connecting fd originalFlags address rest
  | settingFlags fd _ _ rest, _ => .givingUp fd rest
  | connecting fd originalFlags _ rest, .number _ => .restoringFlags fd originalFlags rest
  | connecting fd originalFlags _ rest, .failed .EINPROGRESS => .polling fd originalFlags rest
  | connecting fd _ _ rest, _ => .givingUp fd rest
  | polling fd originalFlags rest, .number n => if 0 < n then .gettingError fd originalFlags rest else .givingUp fd rest
  | polling fd originalFlags rest, .failed .EINTR => .polling fd originalFlags rest
  | polling fd _ rest, _ => .givingUp fd rest
  | gettingError fd originalFlags rest, .number n =>
    if n = 0 then .restoringFlags fd originalFlags rest else .givingUp fd rest
  | gettingError fd _ rest, _ => .givingUp fd rest
  | restoringFlags fd _ _, .number _ => .settingSendTimeout fd
  | restoringFlags fd _ rest, _ => .givingUp fd rest
  | givingUp _ rest, _ => nextAddress rest
  | settingSendTimeout fd, _ => .settingReceiveTimeout fd
  | settingReceiveTimeout fd, _ => .freeing (some fd)
  | freeing none, _ => finished
  | freeing (some fd), _ => sendParts fd parts
  | sending fd data later, .number sent => if 0 < sent then sendParts fd (data.drop sent :: later) else .closing fd
  | sending fd data later, .failed .EINTR => .sending fd data later
  | sending fd _ _, _ => .closing fd
  | discarding fd, .bytes received => if received.isEmpty then .closing fd else .discarding fd
  | discarding fd, .failed .EINTR => .discarding fd
  | discarding fd, _ => .closing fd
  | closing _, _ => finished
  | finished, _ => finished

/-- The descriptor that `send` has to close. -/
def own : SendStage → Option Fd
  | resolving | opening _ _ | finished => none
  | gettingFlags fd _ _ | settingFlags fd _ _ _ | connecting fd _ _ _ | polling fd _ _ | gettingError fd _ _ => some fd
  | restoringFlags fd _ _ | givingUp fd _ | settingSendTimeout fd | settingReceiveTimeout fd => some fd
  | freeing fd => fd
  | sending fd _ _ | discarding fd | closing fd => some fd

/-- The descriptor that must be in the mode in which it was opened. -/
def restored : SendStage → Option Fd
  | gettingFlags fd _ _ | settingFlags fd _ _ _ | settingSendTimeout fd | settingReceiveTimeout fd => some fd
  | freeing fd => fd
  | sending fd _ _ | discarding fd | closing fd => some fd
  | _ => none

/-- The flags that `send` has asked for. -/
def original : SendStage → Option Nat
  | settingFlags _ n _ _ | connecting _ n _ _ | polling _ n _ | gettingError _ n _ | restoringFlags _ n _ => some n
  | _ => none

/-- The address lists that `send` has to free. -/
def lists : SendStage → Nat
  | resolving | sending _ _ _ | discarding _ | closing _ | finished => 0
  | _ => 1

@[simp] theorem own_nextAddress (rest : List Address) : (nextAddress rest).own = none := by
  cases rest <;> rfl

@[simp] theorem lists_nextAddress (rest : List Address) : (nextAddress rest).lists = 1 := by
  cases rest <;> rfl

@[simp] theorem restored_nextAddress (rest : List Address) : (nextAddress rest).restored = none := by
  cases rest <;> rfl

@[simp] theorem original_nextAddress (rest : List Address) : (nextAddress rest).original = none := by
  cases rest <;> rfl

/-- The stage in which the parts are sent is about their descriptor alone. -/
theorem sendParts_cases (fd : Fd) (parts : List (List Byte)) :
    sendParts fd parts = .discarding fd ∧ parts.flatten = [] ∨
      ∃ data later, sendParts fd parts = .sending fd data later ∧ data ≠ [] ∧
        parts.flatten = data ++ later.flatten := by
  induction parts with
  | nil => exact .inl ⟨rfl, rfl⟩
  | cons data later ih =>
    unfold sendParts
    by_cases hd : data = []
    · subst hd
      simpa using ih
    · rw [if_neg (by simpa using hd)]
      exact .inr ⟨data, later, rfl, hd, rfl⟩

@[simp] theorem restored_sendParts (fd : Fd) (parts : List (List Byte)) : (sendParts fd parts).restored = some fd := by
  rcases sendParts_cases fd parts with ⟨h, -⟩ | ⟨data, later, h, -⟩ <;> rw [h] <;> rfl

@[simp] theorem original_sendParts (fd : Fd) (parts : List (List Byte)) : (sendParts fd parts).original = none := by
  rcases sendParts_cases fd parts with ⟨h, -⟩ | ⟨data, later, h, -⟩ <;> rw [h] <;> rfl

@[simp] theorem own_sendParts (fd : Fd) (parts : List (List Byte)) : (sendParts fd parts).own = some fd := by
  rcases sendParts_cases fd parts with ⟨h, -⟩ | ⟨data, later, h, -⟩ <;> rw [h] <;> rfl

@[simp] theorem lists_sendParts (fd : Fd) (parts : List (List Byte)) : (sendParts fd parts).lists = 0 := by
  rcases sendParts_cases fd parts with ⟨h, -⟩ | ⟨data, later, h, -⟩ <;> rw [h] <;> rfl

end SendStage

namespace OtelNativeTransport

/-- The parts of the request, each handed to `send_all`. -/
def parts (t : OtelNativeTransport) (jsonBody : List Byte) : List (List Byte) :=
  [t.requestPrefix, contentLength jsonBody, jsonBody]

/-- `send`. -/
def send (t : OtelNativeTransport) (jsonBody : List Byte) : Client SendStage Call Answer :=
  ⟨SendStage.call t, SendStage.see (t.parts jsonBody)⟩

variable {t : OtelNativeTransport} {jsonBody : List Byte} {o₀ o : Os} {g : SendStage} {tr : List (Call × Answer)}

/-- Only `socket` and `close` change which descriptor `send` has to close. -/
private theorem own_see (parts : List (List Byte)) (g : SendStage) (r : Answer) {k : Call} (hk : g.call t = some k)
    (hsocket : ∀ family socktype protocol, k ≠ .socket family socktype protocol) (hclose : ∀ fd, k ≠ .close fd) :
    (g.see parts r).own = g.own := by
  cases g with
  | opening => cases hk; exact absurd rfl (hsocket _ _ _)
  | givingUp => cases hk; exact absurd rfl (hclose _)
  | closing => cases hk; exact absurd rfl (hclose _)
  | resolving =>
    cases r with
    | addresses list => exact SendStage.own_nextAddress list
    | _ => rfl
  | freeing fd =>
    cases fd with
    | none => rfl
    | some fd => exact SendStage.own_sendParts fd parts
  | sending fd data later =>
    cases r with
    | number sent =>
      simp only [SendStage.see]
      split
      · exact SendStage.own_sendParts fd _
      · rfl
    | failed e => cases e <;> rfl
    | _ => rfl
  | _ =>
    cases r with
    | number n => simp only [SendStage.see] <;> first | rfl | (split <;> rfl)
    | bytes data => simp only [SendStage.see] <;> first | rfl | (split <;> rfl)
    | failed e => cases e <;> rfl
    | addresses list => rfl

/-- Only `getaddrinfo` and `freeaddrinfo` change what `send` has to free. -/
private theorem lists_see (parts : List (List Byte)) (g : SendStage) (r : Answer) {k : Call} (hk : g.call t = some k)
    (hresolve : ∀ host service, k ≠ .getaddrinfo host service) (hfree : k ≠ .freeaddrinfo) :
    (g.see parts r).lists = g.lists := by
  cases g with
  | resolving => cases hk; exact absurd rfl (hresolve _ _)
  | freeing => cases hk; exact absurd rfl hfree
  | givingUp fd rest => exact SendStage.lists_nextAddress rest
  | opening address rest =>
    cases r with
    | number fd => rfl
    | _ => exact SendStage.lists_nextAddress rest
  | sending fd data later =>
    cases r with
    | number sent =>
      simp only [SendStage.see]
      split
      · exact SendStage.lists_sendParts fd _
      · rfl
    | failed e => cases e <;> rfl
    | _ => rfl
  | _ =>
    cases r with
    | number n => simp only [SendStage.see] <;> first | rfl | (split <;> rfl)
    | bytes data => simp only [SendStage.see] <;> first | rfl | (split <;> rfl)
    | failed e => cases e <;> rfl
    | addresses list => rfl

/-- `send` looks after its descriptor and its address list. -/
theorem careful_send (t : OtelNativeTransport) (jsonBody : List Byte) :
    Careful (t.send jsonBody) (fun _ => False) SendStage.own SendStage.lists where
  uses g k fd hk hfd := by
    left
    cases g <;> cases hk <;> cases hfd <;> rfl
  socket g family socktype protocol hk := by
    cases g with
    | opening address rest =>
      exact ⟨rfl, fun fd => rfl, fun e => SendStage.own_nextAddress rest⟩
    | _ => cases hk
  close g fd hk := by
    cases g with
    | givingUp fd rest => exact SendStage.own_nextAddress rest
    | closing fd => rfl
    | _ => cases hk
  keeps g k r hk := own_see _ g r hk
  resolve g host service hk := by
    cases g with
    | resolving => exact ⟨rfl, fun l => SendStage.lists_nextAddress l, fun e => rfl⟩
    | _ => cases hk
  free g hk := by
    cases g with
    | freeing fd =>
      cases fd with
      | none => exact ⟨rfl, rfl⟩
      | some fd => exact ⟨rfl, SendStage.lists_sendParts fd _⟩
    | _ => cases hk
  others g k r hk := lists_see _ g r hk

/-- Where `send` talks to the other side its descriptor has the flags with which it was opened. -/
structure Flagged (g : SendStage) (o : Os) : Prop where
  restored : ∀ fd, g.restored = some fd → o.flags fd = some O_RDWR
  original : ∀ n, g.original = some n → n = O_RDWR

private theorem flagged_of_none {g : SendStage} (hr : g.restored = none) (ho : g.original = none) (o : Os) :
    Flagged g o := by
  constructor
  · intro fd h
    rw [hr] at h
    cases h
  · intro n h
    rw [ho] at h
    cases h

/-- A stage that asks for no more than the one before. -/
private theorem Flagged.mono {g g' : SendStage} (h : Flagged g o) (hr : g'.restored = none ∨ g'.restored = g.restored)
    (ho : g'.original = none ∨ g'.original = g.original) : Flagged g' o := by
  constructor
  · intro fd hfd
    rcases hr with hr | hr
    · rw [hr] at hfd
      cases hfd
    · exact h.restored fd (hr.symm.trans hfd)
  · intro n hn
    rcases ho with ho | ho
    · rw [ho] at hn
      cases hn
    · exact h.original n (ho.symm.trans hn)

/-- The flags that were fetched stay known, and are not restored. -/
private theorem flagged_of_original {g g' : SendStage} {o : Os} (h : Flagged g o) (hr : g'.restored = none)
    (ho : g'.original = g.original) (o' : Os) : Flagged g' o' := by
  refine ⟨?_, by rw [ho]; exact h.original⟩
  intro fd hfd
  rw [hr] at hfd
  cases hfd

private theorem flagged_step {o' : Os} {k : Call} {r : Answer} (parts : List (List Byte)) (h : Flagged g o)
    (hk : g.call t = some k) (hr : os.answer o k r = some o') : Flagged (g.see parts r) o' := by
  obtain ⟨-, hrespond⟩ := respond_of_answer hr
  have hresponds := responds_of_answer hr
  cases g with
  | resolving =>
    cases hk
    cases r with
    | addresses list =>
      exact flagged_of_none (SendStage.restored_nextAddress list) (SendStage.original_nextAddress list) _
    | _ => exact flagged_of_none rfl rfl _
  | opening address rest =>
    cases hk
    cases r with
    | number fd =>
      cases hresponds with
      | opened _ _ _ _ hfresh =>
        refine ⟨?_, fun n hn => by cases hn⟩
        rintro fd' ⟨⟩
        exact Function.update_self ..
      | same _ _ _ _ hsocket => exact absurd rfl (hsocket _ _ _)
    | _ => exact flagged_of_none (SendStage.restored_nextAddress rest) (SendStage.original_nextAddress rest) _
  | gettingFlags fd address rest =>
    cases hk
    cases r with
    | number n =>
      simp only [Os.respond] at hrespond
      split at hrespond
      · rename_i hn
        cases hrespond
        have hflags := h.restored fd rfl
        refine ⟨h.restored, ?_⟩
        rintro n' ⟨⟩
        rw [hflags] at hn
        exact (Option.some.inj hn).symm
      · cases hrespond
    | _ => exact flagged_of_none rfl rfl _
  | settingFlags fd n address rest =>
    cases hk
    cases r with
    | number m => exact flagged_of_original h (by rfl) (by rfl) _
    | _ => exact flagged_of_none rfl rfl _
  | connecting fd n address rest =>
    cases r with
    | number m => exact flagged_of_original h (by rfl) (by rfl) _
    | failed e =>
      cases e with
      | EINPROGRESS => exact flagged_of_original h (by rfl) (by rfl) _
      | _ => exact flagged_of_none rfl rfl _
    | _ => exact flagged_of_none rfl rfl _
  | polling fd n rest =>
    cases r with
    | number m =>
      simp only [SendStage.see]
      split
      · exact flagged_of_original h (by rfl) (by rfl) _
      · exact flagged_of_none rfl rfl _
    | failed e =>
      cases e with
      | EINTR => exact flagged_of_original h (by rfl) (by rfl) _
      | _ => exact flagged_of_none rfl rfl _
    | _ => exact flagged_of_none rfl rfl _
  | gettingError fd n rest =>
    cases r with
    | number m =>
      simp only [SendStage.see]
      split
      · exact flagged_of_original h (by rfl) (by rfl) _
      · exact flagged_of_none rfl rfl _
    | _ => exact flagged_of_none rfl rfl _
  | restoringFlags fd n rest =>
    cases hk
    cases r with
    | number m =>
      cases hresponds with
      | flagged =>
        refine ⟨?_, fun n hn => by cases hn⟩
        rintro fd' ⟨⟩
        rw [h.original n rfl]
        exact Function.update_self ..
      | same _ _ _ _ _ _ hflags => exact absurd rfl (hflags _ _)
    | _ => exact flagged_of_none rfl rfl _
  | givingUp fd rest =>
    exact flagged_of_none (SendStage.restored_nextAddress rest) (SendStage.original_nextAddress rest) _
  | settingSendTimeout fd =>
    cases hk
    have hsame : o' = o := by cases hresponds <;> rfl
    subst hsame
    exact h.mono (.inr rfl) (.inl rfl)
  | settingReceiveTimeout fd =>
    cases hk
    have hsame : o' = o := by cases hresponds <;> rfl
    subst hsame
    exact h.mono (.inr rfl) (.inl rfl)
  | freeing fd =>
    cases hk
    have hsame : o'.flags = o.flags := by cases hresponds <;> rfl
    cases fd with
    | none => exact flagged_of_none rfl rfl _
    | some fd =>
      refine ⟨?_, ?_⟩
      · intro fd' hfd'
        rw [show (SendStage.freeing (some fd)).see parts r = SendStage.sendParts fd parts from rfl,
          SendStage.restored_sendParts] at hfd'
        rw [hsame]
        exact h.restored fd' hfd'
      · intro n hn
        rw [show (SendStage.freeing (some fd)).see parts r = SendStage.sendParts fd parts from rfl,
          SendStage.original_sendParts] at hn
        cases hn
  | sending fd data later =>
    cases hk
    have hsame : o' = o := by cases hresponds <;> rfl
    subst hsame
    refine h.mono ?_ ?_
    · cases r with
      | number sent =>
        simp only [SendStage.see]
        split
        · exact .inr (SendStage.restored_sendParts fd _)
        · exact .inr rfl
      | failed e => cases e <;> exact .inr rfl
      | _ => exact .inr rfl
    · cases r with
      | number sent =>
        simp only [SendStage.see]
        split
        · exact .inl (SendStage.original_sendParts fd _)
        · exact .inl rfl
      | failed e => cases e <;> exact .inl rfl
      | _ => exact .inl rfl
  | discarding fd =>
    cases hk
    have hsame : o' = o := by cases hresponds <;> rfl
    subst hsame
    refine h.mono ?_ ?_
    · cases r with
      | bytes received =>
        simp only [SendStage.see]
        split <;> exact .inr rfl
      | failed e => cases e <;> exact .inr rfl
      | _ => exact .inr rfl
    · cases r with
      | bytes received =>
        simp only [SendStage.see]
        split <;> exact .inl rfl
      | failed e => cases e <;> exact .inl rfl
      | _ => exact .inl rfl
  | closing fd => exact flagged_of_none rfl rfl _
  | finished => cases hk

/-- In every run of `send`, whatever the system answers, also if connections fail in the middle: every call works on a
descriptor that `send` has opened and not closed, and frees what was handed out; data is sent and received only on a
descriptor in the mode in which it was opened; and at its end the process has the descriptors, with their flags, and the
address lists that it had. -/
theorem native_send_keeps_descriptors
    (h : ((t.send jsonBody).against os).Exec Machine.Any (.resolving, o₀) tr (g, o)) :
    (∀ k, (t.send jsonBody).call g = some k → o.admits k = true ∧ ∀ fd, k.fd? = some fd → o₀.flags fd = none) ∧
    (∀ fd data, (t.send jsonBody).call g = some (.send fd data) → o.flags fd = some O_RDWR) ∧
    (∀ fd size, (t.send jsonBody).call g = some (.recv fd size) → o.flags fd = some O_RDWR) ∧
    (g = .finished → o = o₀) := by
  have hC := careful_send t jsonBody
  have hB := hC.balanced rfl rfl h
  have hF : Flagged g o := by
    refine Client.invariant (I := fun _ g o => Flagged g o) h (flagged_of_none rfl rfl _) ?_
    intro _ g o k r o' hI hk hr
    exact flagged_step (t.parts jsonBody) hI hk hr
  refine ⟨?_, ?_, ?_, ?_⟩
  · intro k hk
    refine ⟨hC.admits (fun _ h => h.elim) hB hk, ?_⟩
    intro fd hfd
    rcases hC.uses g k fd hk hfd with hown | ⟨hno, -⟩
    · exact (hB.owned fd hown).1
    · exact hno.elim
  · intro fd data hk
    cases g with
    | sending => cases hk; exact hF.restored _ rfl
    | _ => cases hk
  · intro fd size hk
    cases g with
    | discarding => cases hk; exact hF.restored _ rfl
    | _ => cases hk
  · rintro rfl
    exact hB.eq

/-- A transport with a short prefix. -/
def shortTransport : OtelNativeTransport := ⟨⟨[97], [47], false, 80⟩, [80, 79]⟩

/-- A process with its standard descriptors. -/
def standardOs : Os := ⟨fun fd => if fd < 3 then some O_RDWR else none, 0⟩

/-- The first address refuses the connection; the second takes its time, is interrupted twice and answers one byte. -/
def secondAddress : List Answer :=
  [.addresses [⟨10, 1, 6, [1]⟩, ⟨2, 1, 6, [2]⟩], .number 3, .number 2, .number 0, .failed (.other 111), .number 0,
    .number 3, .number 2, .number 0, .failed .EINPROGRESS, .failed .EINTR, .number 1, .number 0, .number 0, .number 0,
    .number 0, .number 0, .number 2, .failed .EINTR, .number 21, .number 1, .number 1, .bytes [72], .bytes [],
    .number 0]

/-- `send` has returned. -/
def ended : SendStage → Bool
  | .finished => true
  | _ => false

theorem eq_finished_of_ended {g : SendStage} (h : ended g = true) : g = .finished := by
  cases g <;> first | rfl | cases h

theorem native_send_keeps_descriptors_secondAddress :
    ∃ tr o, ((shortTransport.send [123, 125]).against os).Exec Machine.Any (.resolving, standardOs) tr (.finished, o) ∧
      tr.length = 25 ∧ o = standardOs := by
  obtain ⟨tr, ⟨g, o⟩, h, hc⟩ := Machine.exists_exec_of_run ((shortTransport.send [123, 125]).against os) Machine.Any
    (.resolving, standardOs) (fun _ _ => true) secondAddress
    (fun tr x => ended x.1 && decide (tr.length = 25)) (fun _ _ _ => trivial) (by decide)
  rw [Bool.and_eq_true, decide_eq_true_eq] at hc
  obtain rfl := eq_finished_of_ended hc.1
  exact ⟨tr, o, h, hc.2, (native_send_keeps_descriptors h).2.2.2 rfl⟩

end OtelNativeTransport

end Xtd
