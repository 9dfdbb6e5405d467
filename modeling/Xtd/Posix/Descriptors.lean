import Xtd.Posix.Calls

/-!
# Programs that look after their descriptors

A program that has at most one descriptor of its own at a time, and at most one address list.  If its state says which, and
every call agrees with that, then in every run the table of the process is what it was at the start and the descriptor of
the program, every call works on an open descriptor and nothing is freed twice.
-/

namespace Posix

open Concurrency

/-- The call changes the table or the flags of its descriptor. -/
def Call.changes : Call → Bool
  | close _ | setFlags _ _ => true
  | _ => false

/-- What the program owns, `own` and `lists`, is what its calls have brought about; descriptors that were `given` to it are
only used. -/
structure Careful {γ : Type} (C : Client γ Call Answer) (given : Fd → Prop) (own : γ → Option Fd)
    (lists : γ → Nat) : Prop where
  uses : ∀ g k fd, C.call g = some k → k.fd? = some fd → own g = some fd ∨ given fd ∧ k.changes = false
  socket : ∀ g family socktype protocol, C.call g = some (.socket family socktype protocol) → own g = none ∧
    (∀ fd, own (C.see g (.number fd)) = some fd) ∧ ∀ e, own (C.see g (.failed e)) = none
  close : ∀ g fd, C.call g = some (.close fd) → own (C.see g (.number 0)) = none
  keeps : ∀ g k r, C.call g = some k → (∀ family socktype protocol, k ≠ .socket family socktype protocol) →
    (∀ fd, k ≠ .close fd) → own (C.see g r) = own g
  resolve : ∀ g host service, C.call g = some (.getaddrinfo host service) → lists g = 0 ∧
    (∀ l, lists (C.see g (.addresses l)) = 1) ∧ ∀ e, lists (C.see g (.failed e)) = 0
  free : ∀ g, C.call g = some .freeaddrinfo → lists g = 1 ∧ lists (C.see g (.number 0)) = 0
  others : ∀ g k r, C.call g = some k → (∀ host service, k ≠ .getaddrinfo host service) → k ≠ .freeaddrinfo →
    lists (C.see g r) = lists g

/-- The table of the process, compared with what it was. -/
structure Balanced (o₀ : Os) (own : Option Fd) (lists : Nat) (o : Os) : Prop where
  others : ∀ fd, own ≠ some fd → o.flags fd = o₀.flags fd
  owned : ∀ fd, own = some fd → o₀.flags fd = none ∧ (o.flags fd).isSome = true
  lists : o.lists = o₀.lists + lists

variable {γ : Type} {C : Client γ Call Answer} {given : Fd → Prop} {own : γ → Option Fd} {lists : γ → Nat}
  {o₀ o o' : Os} {g g₀ : γ} {k : Call} {r : Answer} {tr : List (Call × Answer)}
  {ok : γ × Os → Answer → Prop}

/-- Nothing is left behind. -/
theorem Balanced.eq (h : Balanced o₀ none 0 o) : o = o₀ := by
  have hflags : o.flags = o₀.flags := funext fun fd => h.others fd nofun
  have hlists : o.lists = o₀.lists := h.lists
  cases o
  cases o₀
  simp_all

/-- The next call of the program is admitted. -/
theorem Careful.admits (hC : Careful C given own lists) (hgiven : ∀ fd, given fd → (o₀.flags fd).isSome = true)
    (h : Balanced o₀ (own g) (lists g) o) (hk : C.call g = some k) : o.admits k = true := by
  by_cases hfree : k = .freeaddrinfo
  · subst hfree
    have hone := (hC.free g hk).1
    have hsum := h.lists
    simp only [Os.admits, decide_eq_true_eq]
    omega
  · have hadmits : o.admits k = k.fd?.all fun fd => (o.flags fd).isSome := by
      cases k <;> first | rfl | exact absurd rfl hfree
    rw [hadmits, Option.all_eq_true]
    intro fd hfd
    rcases hC.uses g k fd hk hfd with hown | ⟨hg, -⟩
    · exact (h.owned fd hown).2
    · by_cases hown : own g = some fd
      · exact (h.owned fd hown).2
      · rw [h.others fd hown]
        exact hgiven fd hg

/-- A call keeps the balance. -/
theorem Careful.balanced_step (hC : Careful C given own lists) (h : Balanced o₀ (own g) (lists g) o)
    (hk : C.call g = some k) (hr : o.Responds k r o') : Balanced o₀ (own (C.see g r)) (lists (C.see g r)) o' := by
  obtain ⟨hothers, howned, hsum⟩ := h
  cases hr with
  | resolved host service l =>
    obtain ⟨hzero, hone, -⟩ := hC.resolve g host service hk
    rw [hC.keeps g _ _ hk nofun nofun, hone l]
    exact ⟨hothers, howned, by rw [hsum, hzero]⟩
  | freed =>
    obtain ⟨hone, hzero⟩ := hC.free g hk
    rw [hC.keeps g _ _ hk nofun nofun, hzero]
    refine ⟨hothers, howned, ?_⟩
    show o.lists - 1 = _
    omega
  | opened family socktype protocol fd hfresh =>
    obtain ⟨hnone, hnew, -⟩ := hC.socket g family socktype protocol hk
    rw [hC.others g _ _ hk nofun nofun, hnew fd]
    refine ⟨?_, ?_, hsum⟩
    · intro fd' hfd'
      have hne : fd' ≠ fd := fun he => hfd' (by rw [he])
      rw [← hothers fd' (by rw [hnone]; exact nofun)]
      exact Function.update_of_ne hne ..
    · intro fd' hfd'
      cases hfd'
      rw [hothers fd (by rw [hnone]; exact nofun)] at hfresh
      exact ⟨hfresh, by simp⟩
  | flagged fd flags =>
    have hown : own g = some fd := by
      rcases hC.uses g _ fd hk rfl with hown | ⟨-, hch⟩
      · exact hown
      · cases hch
    rw [hC.others g _ _ hk nofun nofun, hC.keeps g _ _ hk nofun nofun]
    refine ⟨?_, ?_, hsum⟩
    · intro fd' hfd'
      have hne : fd' ≠ fd := fun he => hfd' (by rw [hown, he])
      rw [← hothers fd' hfd']
      exact Function.update_of_ne hne ..
    · intro fd' hfd'
      cases hown.symm.trans hfd'
      exact ⟨(howned fd hown).1, by simp⟩
  | closed fd =>
    have hown : own g = some fd := by
      rcases hC.uses g _ fd hk rfl with hown | ⟨-, hch⟩
      · exact hown
      · cases hch
    rw [hC.others g _ _ hk nofun nofun, hC.close g fd hk]
    refine ⟨?_, nofun, hsum⟩
    intro fd' _
    by_cases he : fd' = fd
    · subst he
      rw [(howned fd' hown).1]
      exact Function.update_self ..
    · rw [← hothers fd' (by rw [hown]; exact fun e => he (Option.some.inj e).symm)]
      exact Function.update_of_ne he ..
  | failed _ e hfree hclose =>
    have hown : own (C.see g (.failed e)) = own g := by
      by_cases hsocket : ∃ family socktype protocol, k = .socket family socktype protocol
      · obtain ⟨family, socktype, protocol, rfl⟩ := hsocket
        obtain ⟨hnone, -, hfail⟩ := hC.socket g family socktype protocol hk
        rw [hnone, hfail e]
      · exact hC.keeps g k _ hk (fun _ _ _ he => hsocket ⟨_, _, _, he⟩) hclose
    have hlists : lists (C.see g (.failed e)) = lists g := by
      by_cases hresolve : ∃ host service, k = .getaddrinfo host service
      · obtain ⟨host, service, rfl⟩ := hresolve
        obtain ⟨hzero, -, hfail⟩ := hC.resolve g host service hk
        rw [hzero, hfail e]
      · exact hC.others g k _ hk (fun _ _ he => hresolve ⟨_, _, he⟩) hfree
    rw [hown, hlists]
    exact ⟨hothers, howned, hsum⟩
  | same _ _ hresolve hfree hsocket hclose hflags =>
    rw [hC.others g k r hk hresolve hfree, hC.keeps g k r hk hsocket hclose]
    exact ⟨hothers, howned, hsum⟩

/-- In every run of a careful program the table is what it was and what the program owns. -/
theorem Careful.balanced (hC : Careful C given own lists) (hown : own g₀ = none) (hlists : lists g₀ = 0)
    (h : (C.against os).Exec ok (g₀, o₀) tr (g, o)) : Balanced o₀ (own g) (lists g) o := by
  refine Client.invariant (I := fun _ g o => Balanced o₀ (own g) (lists g) o) h ?_ ?_
  · show Balanced o₀ (own g₀) (lists g₀) o₀
    rw [hown, hlists]
    exact ⟨fun _ _ => rfl, nofun, rfl⟩
  · intro _ g o k r o' hI hk hr
    exact hC.balanced_step hI hk (responds_of_answer hr)

end Posix
