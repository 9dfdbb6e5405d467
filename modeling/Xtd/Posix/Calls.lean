import Xtd.Concurrency.Client

/-!
# Programs and their system calls

A program between its system calls is a client: its state says what it calls next, and it goes on by the answer.  An
environment says which answers a call can get.  The operating system of this file is such an environment: it keeps the
status flags of the open descriptors and counts the address lists that were handed out and not freed.  Answers are
otherwise free; a transfer of bytes may be short, a receive returns no more than was asked for.  Two failures are left
out: `freeaddrinfo` has none, and `close` on an open descriptor is taken to succeed.
-/

namespace Concurrency

/-- What becomes of an environment that gives an answer; `none` if it cannot give it. -/
structure Environment (ε κ ρ : Type) where
  answer : ε → κ → ρ → Option ε

namespace Client

variable {γ ε κ ρ : Type}

/-- A client served by an environment.  The calls are shown with their answers. -/
def against (C : Client γ κ ρ) (E : Environment ε κ ρ) : Machine (γ × ε) ρ (κ × ρ) where
  step x r :=
    match C.call x.1 with
    | none => none
    | some k => (E.answer x.2 k r).map fun e => ((C.see x.1 r, e), [(k, r)])

variable {C : Client γ κ ρ} {E : Environment ε κ ρ} {ok : γ × ε → ρ → Prop} {x₀ x x' : γ × ε} {r : ρ}
  {tr evs : List (κ × ρ)}

theorem answered_of_step (h : (C.against E).step x r = some (x', evs)) :
    ∃ k, C.call x.1 = some k ∧ E.answer x.2 k r = some x'.2 ∧ x'.1 = C.see x.1 r ∧ evs = [(k, r)] := by
  simp only [against] at h
  split at h
  · cases h
  · rename_i k hk
    obtain ⟨e, he, heq⟩ := Option.map_eq_some_iff.1 h
    cases heq
    exact ⟨k, hk, he, rfl, rfl⟩

/-- The invariant rule: what holds at the start and is kept by every call with its answer holds at the end. -/
theorem invariant {I : List (κ × ρ) → γ → ε → Prop} (h : (C.against E).Exec ok x₀ tr x) (h0 : I [] x₀.1 x₀.2)
    (hstep : ∀ tr g e k r e', I tr g e → C.call g = some k → E.answer e k r = some e' →
      I (tr ++ [(k, r)]) (C.see g r) e') : I tr x.1 x.2 := by
  refine Machine.Exec.invariant (I := fun tr x => I tr x.1 x.2) h h0 ?_
  intro tr x r x' evs hI _ hs
  obtain ⟨k, hk, he, hx, rfl⟩ := answered_of_step hs
  rw [hx]
  exact hstep _ _ _ _ _ _ hI hk he

/-- The rule for the length of runs: every call is paid for by a potential of the program or by its answer. -/
theorem length_le {potential : γ → Nat} {cost : κ × ρ → Nat} (h : (C.against E).Exec ok x₀ tr x)
    (hstep : ∀ g e k r e', C.call g = some k → E.answer e k r = some e' →
      potential (C.see g r) + 1 ≤ potential g + cost (k, r)) :
    tr.length + potential x.1 ≤ potential x₀.1 + (tr.map cost).sum := by
  refine invariant (I := fun tr g _ => tr.length + potential g ≤ potential x₀.1 + (tr.map cost).sum) h (by simp) ?_
  intro tr g e k r e' hle hk he
  have hpay := hstep g e k r e' hk he
  simp only [List.length_append, List.length_singleton, List.map_append, List.map_singleton, List.sum_append,
    List.sum_singleton]
  omega

end Client

end Concurrency

namespace Posix

open Concurrency

abbrev Fd := Nat

inductive Errno
  | EINTR
  | EAGAIN
  | EINPROGRESS
  | other (code : Nat)
  deriving DecidableEq

/-- What `addrinfo` says about an address. -/
structure Address where
  family : Nat
  socktype : Nat
  protocol : Nat
  addr : List UInt8
  deriving DecidableEq

def O_NONBLOCK : Nat := 2048

/-- The flags of a descriptor that was opened for reading and writing. -/
def O_RDWR : Nat := 2

inductive SocketOption
  | sendTimeout
  | receiveTimeout
  deriving DecidableEq

inductive Call
  | getaddrinfo (host service : List UInt8)
  | freeaddrinfo
  | socket (family socktype protocol : Nat)
  | getFlags (fd : Fd)
  | setFlags (fd : Fd) (flags : Nat)
  | connect (fd : Fd) (addr : List UInt8)
  | pollWritable (fd : Fd) (milliseconds : Nat)
  | getSocketError (fd : Fd)
  | setTimeout (fd : Fd) (option : SocketOption) (seconds : Nat)
  | write (fd : Fd) (data : List UInt8)
  | fsync (fd : Fd)
  | send (fd : Fd) (data : List UInt8)
  | recv (fd : Fd) (size : Nat)
  | close (fd : Fd)

/-- A number stands for every result of a successful call that is not a list; it is `0` where nothing is returned. -/
inductive Answer
  | number (n : Nat)
  | bytes (data : List UInt8)
  | addresses (list : List Address)
  | failed (errno : Errno)

/-- The descriptor that a call works on. -/
def Call.fd? : Call → Option Fd
  | getFlags fd | setFlags fd _ | connect fd _ | pollWritable fd _ | getSocketError fd | setTimeout fd _ _ => some fd
  | write fd _ | fsync fd | send fd _ | recv fd _ | close fd => some fd
  | getaddrinfo _ _ | freeaddrinfo | socket _ _ _ => none

/-- The open descriptors with their status flags, and the number of address lists that are not freed. -/
structure Os where
  flags : Fd → Option Nat
  lists : Nat

namespace Os

/-- The call works on an open descriptor, and what it frees is there. -/
def admits (o : Os) (k : Call) : Bool :=
  match k with
  | .freeaddrinfo => decide (0 < o.lists)
  | k => k.fd?.all fun fd => (o.flags fd).isSome

/-- The answers to a call that is admitted.  `close` cannot fail here: what becomes of the descriptor of a failed `close` is
left open by the interface, and the programs do not look at its result. -/
def respond (o : Os) : Call → Answer → Option Os
  | .getaddrinfo _ _, .addresses _ => some { o with lists := o.lists + 1 }
  | .freeaddrinfo, .number 0 => some { o with lists := o.lists - 1 }
  | .socket _ _ _, .number fd =>
    if o.flags fd = none then some { o with flags := Function.update o.flags fd (some O_RDWR) } else none
  | .getFlags fd, .number n => if o.flags fd = some n then some o else none
  | .setFlags fd flags, .number 0 => some { o with flags := Function.update o.flags fd (some flags) }
  | .connect _ _, .number 0 => some o
  | .pollWritable _ _, .number _ => some o
  | .getSocketError _, .number _ => some o
  | .setTimeout _ _ _, .number 0 => some o
  | .write _ data, .number n | .send _ data, .number n => if n ≤ data.length then some o else none
  | .fsync _, .number 0 => some o
  | .recv _ size, .bytes data => if data.length ≤ size then some o else none
  | .close fd, .number 0 => some { o with flags := Function.update o.flags fd none }
  -- `freeaddrinfo` returns nothing; a failing `close` is left out
  | .freeaddrinfo, .failed _ => none
  | .close _, .failed _ => none
  | _, .failed _ => some o
  | _, _ => none

end Os

/-- What an answer can do to the operating system. -/
inductive Os.Responds (o : Os) : Call → Answer → Os → Prop
  | resolved (host service : List UInt8) (l : List Address) :
      Responds o (.getaddrinfo host service) (.addresses l) { o with lists := o.lists + 1 }
  | freed : Responds o .freeaddrinfo (.number 0) { o with lists := o.lists - 1 }
  | opened (family socktype protocol : Nat) (fd : Fd) (h : o.flags fd = none) :
      Responds o (.socket family socktype protocol) (.number fd)
        { o with flags := Function.update o.flags fd (some O_RDWR) }
  | flagged (fd : Fd) (flags : Nat) :
      Responds o (.setFlags fd flags) (.number 0) { o with flags := Function.update o.flags fd (some flags) }
  | closed (fd : Fd) : Responds o (.close fd) (.number 0) { o with flags := Function.update o.flags fd none }
  | failed (k : Call) (e : Errno) (hfree : k ≠ .freeaddrinfo) (hclose : ∀ fd, k ≠ .close fd) :
      Responds o k (.failed e) o
  | same (k : Call) (r : Answer) (hresolve : ∀ host service, k ≠ .getaddrinfo host service)
      (hfree : k ≠ .freeaddrinfo) (hsocket : ∀ family socktype protocol, k ≠ .socket family socktype protocol)
      (hclose : ∀ fd, k ≠ .close fd) (hflags : ∀ fd flags, k ≠ .setFlags fd flags) : Responds o k r o

private theorem responds_of_ite {o o' : Os} {k : Call} {r : Answer} {p : Prop} [Decidable p]
    (h : (if p then some o else none) = some o') (hr : o.Responds k r o) : o.Responds k r o' := by
  split at h
  · cases h
    exact hr
  · cases h

theorem Os.responds_of_respond {o o' : Os} {k : Call} {r : Answer} (h : o.respond k r = some o') :
    o.Responds k r o' := by
  cases r with
  | failed e =>
    cases k with
    | freeaddrinfo => cases h
    | close => cases h
    | _ => cases h; exact .failed _ e nofun nofun
  | addresses l =>
    cases k with
    | getaddrinfo => cases h; exact .resolved _ _ l
    | _ => cases h
  | bytes data =>
    cases k with
    | recv fd size => exact responds_of_ite h (.same _ _ nofun nofun nofun nofun nofun)
    | _ => cases h
  | number n =>
    cases k with
    | getaddrinfo => cases h
    | recv => cases h
    | socket family socktype protocol =>
      simp only [respond] at h
      split at h
      · rename_i hfresh
        cases h
        exact .opened _ _ _ n hfresh
      · cases h
    | freeaddrinfo =>
      cases n with
      | zero => cases h; exact .freed
      | succ n => cases h
    | setFlags fd flags =>
      cases n with
      | zero => cases h; exact .flagged fd flags
      | succ n => cases h
    | close fd =>
      cases n with
      | zero => cases h; exact .closed fd
      | succ n => cases h
    | getFlags fd => exact responds_of_ite h (.same _ _ nofun nofun nofun nofun nofun)
    | write fd data => exact responds_of_ite h (.same _ _ nofun nofun nofun nofun nofun)
    | send fd data => exact responds_of_ite h (.same _ _ nofun nofun nofun nofun nofun)
    | pollWritable => cases h; exact .same _ _ nofun nofun nofun nofun nofun
    | getSocketError => cases h; exact .same _ _ nofun nofun nofun nofun nofun
    | _ =>
      cases n with
      | zero => cases h; exact .same _ _ nofun nofun nofun nofun nofun
      | succ n => cases h

/-- The operating system.  A call that is not admitted has no meaning, so it gets no answer. -/
def os : Environment Os Call Answer where
  answer o k r := if o.admits k then o.respond k r else none

theorem respond_of_answer {o o' : Os} {k : Call} {r : Answer} (h : os.answer o k r = some o') :
    o.admits k = true ∧ o.respond k r = some o' := by
  simp only [os] at h
  split at h
  · rename_i ha
    exact ⟨ha, h⟩
  · cases h

theorem responds_of_answer {o o' : Os} {k : Call} {r : Answer} (h : os.answer o k r = some o') : o.Responds k r o' :=
  Os.responds_of_respond (respond_of_answer h).2

/-- The bytes that a call has handed over. -/
def transferred : Call × Answer → List UInt8
  | (.write _ data, .number n) | (.send _ data, .number n) => data.take n
  | _ => []

/-- The bytes handed over in a run, in order. -/
def output (tr : List (Call × Answer)) : List UInt8 := tr.flatMap transferred

@[simp] theorem output_nil : output [] = [] := rfl

@[simp] theorem output_append (tr tr' : List (Call × Answer)) : output (tr ++ tr') = output tr ++ output tr' := by
  simp [output]

@[simp] theorem output_singleton (e : Call × Answer) : output [e] = transferred e := by
  simp [output]

/-- A transfer takes no more bytes than there are. -/
theorem le_of_transfer {o o' : Os} {k : Call} {fd : Fd} {data : List UInt8} {n : Nat}
    (hk : k = .write fd data ∨ k = .send fd data) (h : os.answer o k (.number n) = some o') :
    n ≤ data.length ∧ o' = o := by
  obtain ⟨-, h⟩ := respond_of_answer h
  rcases hk with rfl | rfl
  all_goals
    simp only [Os.respond] at h
    split at h
    · cases h
      exact ⟨‹_›, rfl⟩
    · cases h

end Posix
