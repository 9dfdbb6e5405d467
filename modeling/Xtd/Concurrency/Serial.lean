import Xtd.Concurrency.Interleaving

/-!
# Calls one after the other

The runs of a program of sections in which a single thread makes its calls one after the other and the environment acts
only between two calls.  A call is given by what the environment does before it, by its operation and by the choice
under which all its sections run.  The rule of refinement (`Refines`) compares such a run, call by call, with a function
that knows nothing of sections: if every call ends and does to the abstract state what the function does, then so does
every sequence of calls.
-/

namespace Concurrency

namespace Sections

variable {τ σ Op L χ δ ω : Type} [DecidableEq τ] {M : Sections σ Op L χ δ ω}

/-! ### A call from its first section to its last -/

/-- `M.Completes z l x evs y`: the sections from `l` on lead from `x` to `y` and to the end of the call. -/
inductive Completes (M : Sections σ Op L χ δ ω) (z : χ) : L → σ → List ω → σ → Prop
  | last {l : L} {x y : σ} {evs : List ω} (h : M.exec l x z = some (y, none, evs)) : Completes M z l x evs y
  | next {l l' : L} {x y w : σ} {evs evs' : List ω} (h : M.exec l x z = some (y, some l', evs))
      (h' : Completes M z l' y evs' w) : Completes M z l x (evs ++ evs') w

variable {z : χ} {l : L} {x y y' : σ} {evs evs' : List ω}

/-- A section that shows nothing. -/
theorem Completes.silent {l' : L} (h : M.exec l x z = some (y, some l', [])) (h' : M.Completes z l' y evs y') :
    M.Completes z l x evs y' := by
  simpa using Completes.next h h'

theorem Completes.unique (h : M.Completes z l x evs y) (h' : M.Completes z l x evs' y') : evs = evs' ∧ y = y' := by
  induction h generalizing evs' y' with
  | last he =>
    cases h' with
    | last he' =>
      rw [he] at he'
      cases he'
      exact ⟨rfl, rfl⟩
    | next he' _ =>
      rw [he] at he'
      cases he'
  | next he _ ih =>
    cases h' with
    | last he' =>
      rw [he] at he'
      cases he'
    | next he' hc' =>
      rw [he] at he'
      cases he'
      obtain ⟨rfl, rfl⟩ := ih hc'
      exact ⟨rfl, rfl⟩

/-- The machine runs a call to its end. -/
theorem Completes.exec (h : M.Completes z l x evs y) {s : State τ σ L} {t : τ} (hx : s.shared = x)
    (hl : s.pc t = some l) :
    (M.machine τ).Exec (fun _ a => a = .run t z) s evs ⟨y, Function.update s.pc t none, s.calls⟩ := by
  induction h generalizing s with
  | last he =>
    subst hx
    exact .single rfl (step_of_moves (.run t z _ _ _ _ hl he))
  | @next l l' x y w evs evs' he _ ih =>
    subst hx
    let s' : State τ σ L := ⟨y, Function.update s.pc t (some l'), s.calls⟩
    have h1 : (M.machine τ).Exec (fun _ a => a = .run t z) s evs s' :=
      .single rfl (step_of_moves (.run t z l y (some l') evs hl he))
    have h2 := ih (s := s') rfl (Function.update_self ..)
    simpa [s'] using h1.trans h2

/-! ### Sequences of calls -/

structure Invocation (Op χ δ : Type) where
  before : δ
  op : Op
  choice : χ

variable {ι : Type} {inv : ι → Invocation Op χ δ} {x₀ : σ} {cs : List ι} {evss evss' : List (List ω)}

/-- `M.Serial inv x₀ cs evss x`: the calls `cs` are made one after the other from `x₀` on; they end with `x` and show
`evss`, a list for each call. -/
inductive Serial (M : Sections σ Op L χ δ ω) (inv : ι → Invocation Op χ δ) (x₀ : σ) :
    List ι → List (List ω) → σ → Prop
  | nil : Serial M inv x₀ [] [] x₀
  | snoc {cs : List ι} {evss : List (List ω)} {x y : σ} {c : ι} {evs : List ω} (h : Serial M inv x₀ cs evss x)
      (hc : M.Completes (inv c).choice (M.enter (inv c).op cs.length (M.env (inv c).before x))
        (M.env (inv c).before x) evs y) : Serial M inv x₀ (cs ++ [c]) (evss ++ [evs]) y

/-- The last call of a sequence. -/
theorem Serial.last {c : ι} (h : M.Serial inv x₀ (cs ++ [c]) evss y) :
    ∃ evss' x evs, evss = evss' ++ [evs] ∧ M.Serial inv x₀ cs evss' x ∧
      M.Completes (inv c).choice (M.enter (inv c).op cs.length (M.env (inv c).before x))
        (M.env (inv c).before x) evs y := by
  generalize hcs : cs ++ [c] = cs' at h
  cases h with
  | nil => simp at hcs
  | @snoc cs' evss x _ c' evs h hc =>
    obtain ⟨rfl, hcc⟩ := List.append_inj' hcs rfl
    cases hcc
    exact ⟨evss, x, evs, rfl, h, hc⟩

theorem Serial.unique (h : M.Serial inv x₀ cs evss x) (h' : M.Serial inv x₀ cs evss' y) : evss = evss' ∧ x = y := by
  induction h generalizing evss' y with
  | nil =>
    generalize hcs : ([] : List ι) = cs' at h'
    cases h' with
    | nil => exact ⟨rfl, rfl⟩
    | snoc _ _ => simp at hcs
  | snoc _ hc ih =>
    obtain ⟨evss₁, x₁, evs₁, rfl, h₁, hc₁⟩ := h'.last
    obtain ⟨rfl, rfl⟩ := ih h₁
    obtain ⟨rfl, rfl⟩ := hc.unique hc₁
    exact ⟨rfl, rfl⟩

/-- A sequence of calls is a run of the machine of one thread. -/
theorem Serial.exec (h : M.Serial inv x₀ cs evss x) (t : τ) :
    (M.machine τ).Exec (fun _ a => a.thread = none ∨ a.thread = some t) (State.init x₀) evss.flatten
      ⟨x, fun _ => none, cs.length⟩ := by
  induction h with
  | nil => exact .nil
  | @snoc cs evss x y c evs h hc ih =>
    have h1 := Machine.Exec.snoc ih (.inl rfl) (step_of_moves (.env (inv c).before))
    have h2 := Machine.Exec.snoc h1 (.inr rfl) (step_of_moves (.call t (inv c).op rfl))
    let l := M.enter (inv c).op cs.length (M.env (inv c).before x)
    let s : State τ σ L := ⟨M.env (inv c).before x, Function.update (fun _ => none) t (some l), cs.length + 1⟩
    have hl : s.pc t = some l := by simp [s]
    have h3 : (M.machine τ).Exec (fun _ a => a.thread = none ∨ a.thread = some t) s evs
        ⟨y, Function.update s.pc t none, s.calls⟩ :=
      (hc.exec rfl hl).mono (fun _ a ha => .inr (by rw [ha]; rfl))
    simpa [s] using h2.trans h3

/-! ### Refinement -/

section

variable {α ρ : Type}

/-- The abstract run of a sequence of calls. -/
def abstractRun (f : α → ι → α × ρ) (a₀ : α) (cs : List ι) : α × List ρ :=
  cs.foldl (fun r c => ((f r.1 c).1, r.2 ++ [(f r.1 c).2])) (a₀, [])

theorem abstractRun_snoc (f : α → ι → α × ρ) (a₀ : α) (cs : List ι) (c : ι) :
    abstractRun f a₀ (cs ++ [c]) =
      ((f (abstractRun f a₀ cs).1 c).1, (abstractRun f a₀ cs).2 ++ [(f (abstractRun f a₀ cs).1 c).2]) := by
  simp [abstractRun]

/-- From a state that meets `I` every call ends, `I` holds again, and what the call does to the abstract state `abs` and
shows as its result `res` is what `f` does. -/
def Refines (M : Sections σ Op L χ δ ω) (inv : ι → Invocation Op χ δ) (I : σ → Prop) (abs : σ → α)
    (res : List ω → ρ) (f : α → ι → α × ρ) : Prop :=
  ∀ n x c, I x → ∃ evs y, M.Completes (inv c).choice (M.enter (inv c).op n (M.env (inv c).before x))
    (M.env (inv c).before x) evs y ∧ I y ∧ f (abs x) c = (abs y, res evs)

variable {I : σ → Prop} {abs : σ → α} {res : List ω → ρ} {f : α → ι → α × ρ}

/-- One call of a sequence. -/
theorem Refines.completes (hR : M.Refines inv I abs res f) {n : Nat} {c : ι} (hI : I x)
    (h : M.Completes (inv c).choice (M.enter (inv c).op n (M.env (inv c).before x)) (M.env (inv c).before x) evs y) :
    I y ∧ f (abs x) c = (abs y, res evs) := by
  obtain ⟨evs', y', h', hI', hf⟩ := hR n x c hI
  obtain ⟨rfl, rfl⟩ := h.unique h'
  exact ⟨hI', hf⟩

/-- Every sequence of calls can be run to its end. -/
theorem Refines.total (hR : M.Refines inv I abs res f) (h0 : I x₀) (cs : List ι) :
    ∃ evss x, M.Serial inv x₀ cs evss x ∧ I x := by
  induction cs using List.reverseRecOn with
  | nil => exact ⟨[], x₀, .nil, h0⟩
  | append_singleton cs c ih =>
    obtain ⟨evss, x, h, hI⟩ := ih
    obtain ⟨evs, y, hc, hI', -⟩ := hR cs.length x c hI
    exact ⟨evss ++ [evs], y, .snoc h hc, hI'⟩

/-- Every sequence of calls does what the abstract run does. -/
theorem Refines.serial (hR : M.Refines inv I abs res f) (h0 : I x₀) (h : M.Serial inv x₀ cs evss x) :
    I x ∧ abstractRun f (abs x₀) cs = (abs x, evss.map res) := by
  induction h with
  | nil => exact ⟨h0, rfl⟩
  | snoc _ hc ih =>
    obtain ⟨hI, hrun⟩ := ih
    obtain ⟨hI', hf⟩ := hR.completes hI hc
    refine ⟨hI', ?_⟩
    rw [abstractRun_snoc, hrun]
    simp [hf]

end

end Sections

end Concurrency
