import Xtd.Logging.NativeTransport

/-!
# The addresses that could not be connected to

`connect_to_host` goes on to the next address when a call for the last one has failed.  So a run of `send` that ends
without a connection shows a failure for every address of the host, or that its addresses could not be found.
-/

namespace Xtd

open Concurrency Posix

namespace OtelNativeTransport

/-- `send` has a connection. -/
def connected : SendStage → Bool
  | .sending _ _ _ | .discarding _ | .closing _ => true
  | _ => false

/-- The answer to a call for an address after which `connect_to_host` gives the address up: there is no socket, its flags
cannot be read or set, the connection is refused, does not come about in time or has failed. -/
def Fails : Call × Answer → Prop
  | (.socket _ _ _, r) | (.getFlags _, r) | (.setFlags _ _, r) => ∀ n, r ≠ .number n
  | (.connect _ _, r) => (∀ n, r ≠ .number n) ∧ r ≠ .failed .EINPROGRESS
  | (.pollWritable _ _, r) => (∀ n, 0 < n → r ≠ .number n) ∧ r ≠ .failed .EINTR
  | (.getSocketError _, r) => r ≠ .number 0
  | _ => False

/-- The calls for an address: a socket of its kind is opened first, and connected to the address. -/
structure CallsFor (address : Address) (piece : List (Call × Answer)) : Prop where
  opens : ∃ r rest, piece = (.socket address.family address.socktype address.protocol, r) :: rest
  connects : ∀ e ∈ piece, ∀ fd addr, e.1 = .connect fd addr → addr = address.addr

/-- An attempt that failed: the first failure ends it, but for the closing of the descriptor. -/
inductive FailedAttempt (address : Address) : List (Call × Answer) → Prop
  | intro (front : List (Call × Answer)) (e : Call × Answer) (back : List (Call × Answer))
      (hcalls : CallsFor address (front ++ [e])) (hfront : ∀ e' ∈ front, ¬ Fails e') (he : Fails e)
      (hback : back = [] ∨ ∃ fd r, back = [(.close fd, r)]) : FailedAttempt address (front ++ [e] ++ back)

/-- The calls of a `send` that found no connection: the addresses of the host could not be found, or the attempt failed
for each of them. -/
inductive Unreachable : List (Call × Answer) → Prop
  | unresolved (host service : List Byte) (r : Answer) (hr : ∀ list, r ≠ .addresses list) :
      Unreachable [(.getaddrinfo host service, r)]
  | refused (host service : List Byte) (list : List Address) (pieces : List (List (Call × Answer))) (r : Answer)
      (hpieces : List.Forall₂ FailedAttempt list pieces) :
      Unreachable ((.getaddrinfo host service, .addresses list) :: (pieces.flatten ++ [(.freeaddrinfo, r)]))

/-- The addresses in front of `rest` were tried in vain; `current` are the calls behind that. -/
def Tried (tr : List (Call × Answer)) (rest : List Address) (current : List (Call × Answer)) : Prop :=
  ∃ host service done pieces, tr = (.getaddrinfo host service, .addresses (done ++ rest)) :: (pieces.flatten ++ current) ∧
    List.Forall₂ FailedAttempt done pieces

/-- The attempt for `address` has not failed so far. -/
def Trying (tr : List (Call × Answer)) (address : Address) (rest : List Address) : Prop :=
  ∃ current, Tried tr (address :: rest) current ∧ CallsFor address current ∧ ∀ e ∈ current, ¬ Fails e

/-- The attempt for an address has just failed. -/
def GivenUp (tr : List (Call × Answer)) (rest : List Address) : Prop :=
  ∃ address front e, Tried tr (address :: rest) (front ++ [e]) ∧ CallsFor address (front ++ [e]) ∧
    (∀ e' ∈ front, ¬ Fails e') ∧ Fails e

/-- What the calls show as long as there is no connection. -/
def Attempts (tr : List (Call × Answer)) : SendStage → Prop
  | .resolving => tr = []
  | .opening address rest => Tried tr (address :: rest) []
  | .gettingFlags _ address rest | .settingFlags _ _ address rest | .connecting _ _ address rest => Trying tr address rest
  | .polling _ _ rest | .gettingError _ _ rest | .restoringFlags _ _ rest => ∃ address, Trying tr address rest
  | .givingUp _ rest => GivenUp tr rest
  | .freeing none => Tried tr [] []
  | .finished => Unreachable tr
  | _ => True

variable {t : OtelNativeTransport} {tr current : List (Call × Answer)} {address : Address} {rest : List Address}
  {g : SendStage} {k : Call} {r : Answer}

private theorem Tried.append (h : Tried tr rest current) (e : Call × Answer) : Tried (tr ++ [e]) rest (current ++ [e]) := by
  obtain ⟨host, service, done, pieces, rfl, hdone⟩ := h
  exact ⟨host, service, done, pieces, by simp, hdone⟩

private theorem Tried.next (h : Tried tr (address :: rest) current) (hfailed : FailedAttempt address current) :
    Tried tr rest [] := by
  obtain ⟨host, service, done, pieces, rfl, hdone⟩ := h
  exact ⟨host, service, done ++ [address], pieces ++ [current], by simp, List.rel_append hdone (.cons hfailed .nil)⟩

private theorem CallsFor.append (h : CallsFor address current)
    (hk : ∀ fd addr, k = .connect fd addr → addr = address.addr) : CallsFor address (current ++ [(k, r)]) := by
  obtain ⟨⟨r', calls, rfl⟩, hconnects⟩ := h
  refine ⟨⟨r', calls ++ [(k, r)], rfl⟩, ?_⟩
  intro e he fd addr hc
  rcases List.mem_append.1 he with he | he
  · exact hconnects e he fd addr hc
  · rw [List.mem_singleton.1 he] at hc
    exact hk fd addr hc

private theorem callsFor_socket (address : Address) (r : Answer) :
    CallsFor address [(.socket address.family address.socktype address.protocol, r)] := by
  refine ⟨⟨r, [], rfl⟩, ?_⟩
  intro e he fd addr hc
  rw [List.mem_singleton.1 he] at hc
  cases hc

private theorem Trying.goesOn (h : Trying tr address rest) (hk : ∀ fd addr, k = .connect fd addr → addr = address.addr)
    (hr : ¬ Fails (k, r)) : Trying (tr ++ [(k, r)]) address rest := by
  obtain ⟨current, htried, hcalls, hok⟩ := h
  refine ⟨_, htried.append (k, r), hcalls.append hk, ?_⟩
  intro e he
  rcases List.mem_append.1 he with he | he
  · exact hok e he
  · rw [List.mem_singleton.1 he]
    exact hr

private theorem Trying.fails (h : Trying tr address rest) (hk : ∀ fd addr, k = .connect fd addr → addr = address.addr)
    (hr : Fails (k, r)) : GivenUp (tr ++ [(k, r)]) rest := by
  obtain ⟨current, htried, hcalls, hok⟩ := h
  exact ⟨address, current, (k, r), htried.append (k, r), hcalls.append hk, hok, hr⟩

private theorem GivenUp.next (h : GivenUp tr rest) (fd : Fd) (r : Answer) : Tried (tr ++ [(.close fd, r)]) rest [] := by
  obtain ⟨address, front, e, htried, hcalls, hfront, he⟩ := h
  exact (htried.append (.close fd, r)).next (.intro front e _ hcalls hfront he (.inr ⟨fd, r, rfl⟩))

private theorem attempts_nextAddress (h : Tried tr rest []) : Attempts tr (.nextAddress rest) := by
  cases rest <;> exact h

/-- A call on the way to a connection, with its answer. -/
theorem attempts_step (parts : List (List Byte)) (h : Attempts tr g) (hg : connected g = false) (hk : g.call t = some k) :
    Attempts (tr ++ [(k, r)]) (g.see parts r) := by
  cases g with
  | finished => cases hk
  | sending => cases hg
  | discarding => cases hg
  | closing => cases hg
  | resolving =>
    cases hk
    obtain rfl : tr = [] := h
    cases r with
    | addresses list => exact attempts_nextAddress ⟨_, _, [], [], rfl, .nil⟩
    | _ => exact .unresolved _ _ _ (by rintro list ⟨⟩)
  | opening address rest =>
    cases hk
    have hcalls := callsFor_socket address r
    have htried : Tried tr (address :: rest) [] := h
    have hfailed : (∀ n, r ≠ .number n) →
        Tried (tr ++ [(.socket address.family address.socktype address.protocol, r)]) rest [] :=
      fun hr => (htried.append _).next (.intro [] _ [] hcalls (List.forall_mem_nil _) hr (.inl rfl))
    cases r with
    | number fd =>
      refine ⟨_, htried.append _, hcalls, ?_⟩
      intro e he
      rw [List.nil_append, List.mem_singleton] at he
      rw [he]
      exact fun hfails => hfails fd rfl
    | _ => exact attempts_nextAddress (hfailed (by rintro n ⟨⟩))
  | gettingFlags fd address rest =>
    cases hk
    have htrying : Trying tr address rest := h
    cases r with
    | number n => exact htrying.goesOn (by rintro fd addr ⟨⟩) (fun hfails => hfails n rfl)
    | _ => exact htrying.fails (by rintro fd addr ⟨⟩) (by rintro n ⟨⟩)
  | settingFlags fd originalFlags address rest =>
    cases hk
    have htrying : Trying tr address rest := h
    cases r with
    | number n => exact htrying.goesOn (by rintro fd addr ⟨⟩) (fun hfails => hfails n rfl)
    | _ => exact htrying.fails (by rintro fd addr ⟨⟩) (by rintro n ⟨⟩)
  | connecting fd originalFlags address rest =>
    cases hk
    have htrying : Trying tr address rest := h
    have haddr : ∀ fd' addr, Call.connect fd address.addr = .connect fd' addr → addr = address.addr := by
      rintro fd' addr ⟨⟩
      rfl
    cases r with
    | number n => exact ⟨address, htrying.goesOn haddr (fun hfails => hfails.1 n rfl)⟩
    | failed e =>
      cases e with
      | EINPROGRESS => exact ⟨address, htrying.goesOn haddr (fun hfails => hfails.2 rfl)⟩
      | _ => exact htrying.fails haddr ⟨by rintro n ⟨⟩, by rintro ⟨⟩⟩
    | _ => exact htrying.fails haddr ⟨by rintro n ⟨⟩, by rintro ⟨⟩⟩
  | polling fd originalFlags rest =>
    cases hk
    obtain ⟨address, htrying⟩ : ∃ address, Trying tr address rest := h
    have hcall : ∀ fd' addr, Call.pollWritable fd 1000 = .connect fd' addr → addr = address.addr := by rintro fd' addr ⟨⟩
    cases r with
    | number n =>
      simp only [SendStage.see]
      by_cases hn : 0 < n
      · rw [if_pos hn]
        exact ⟨address, htrying.goesOn hcall (fun hfails => hfails.1 n hn rfl)⟩
      · rw [if_neg hn]
        refine htrying.fails hcall ⟨?_, by rintro ⟨⟩⟩
        rintro m hm ⟨⟩
        exact hn hm
    | failed e =>
      cases e with
      | EINTR => exact ⟨address, htrying.goesOn hcall (fun hfails => hfails.2 rfl)⟩
      | _ => exact htrying.fails hcall ⟨by rintro n - ⟨⟩, by rintro ⟨⟩⟩
    | _ => exact htrying.fails hcall ⟨by rintro n - ⟨⟩, by rintro ⟨⟩⟩
  | gettingError fd originalFlags rest =>
    cases hk
    obtain ⟨address, htrying⟩ : ∃ address, Trying tr address rest := h
    have hcall : ∀ fd' addr, Call.getSocketError fd = .connect fd' addr → addr = address.addr := by rintro fd' addr ⟨⟩
    cases r with
    | number n =>
      simp only [SendStage.see]
      by_cases hn : n = 0
      · rw [if_pos hn]
        exact ⟨address, htrying.goesOn hcall (fun hfails => hfails (by rw [hn]))⟩
      · rw [if_neg hn]
        refine htrying.fails hcall ?_
        rintro ⟨⟩
        exact hn rfl
    | _ => exact htrying.fails hcall (by rintro ⟨⟩)
  | restoringFlags fd originalFlags rest =>
    cases hk
    obtain ⟨address, htrying⟩ : ∃ address, Trying tr address rest := h
    cases r with
    | number n => trivial
    | _ => exact htrying.fails (by rintro fd addr ⟨⟩) (by rintro n ⟨⟩)
  | givingUp fd rest =>
    cases hk
    have hgiven : GivenUp tr rest := h
    exact attempts_nextAddress (hgiven.next fd r)
  | settingSendTimeout => trivial
  | settingReceiveTimeout => trivial
  | freeing fd =>
    cases fd with
    | none =>
      cases hk
      obtain ⟨host, service, list, pieces, rfl, hpieces⟩ : Tried tr [] [] := h
      have hunreachable := Unreachable.refused host service (list ++ []) pieces r (by rwa [List.append_nil])
      show Unreachable _
      simpa using hunreachable
    | some fd =>
      rcases SendStage.sendParts_cases fd parts with ⟨hsee, -⟩ | ⟨data, later, hsee, -⟩
      · rw [SendStage.see, hsee]
        trivial
      · rw [SendStage.see, hsee]
        trivial

end OtelNativeTransport

end Xtd
