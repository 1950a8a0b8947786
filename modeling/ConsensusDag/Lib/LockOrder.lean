/-
Threads that share read-write locks.  A thread holds a lock while the body of a guard
runs.  When all threads take their locks in the order of their ranks, there is no
deadlock: whoever waits for a lock, waits in the end for a thread that can go on.
-/
import Mathlib.Data.List.Basic
import Mathlib.Logic.Function.Basic
import Mathlib.Logic.Relation

namespace LockOrders

open Relation

universe u v

/-- How a lock is taken. -/
inductive Mode
  | read
  | write
deriving DecidableEq, Repr

/-- What a thread does, as far as locks go. -/
inductive Prog (L : Type u)
  | work
  | guard (lock : L) (mode : Mode) (body : Prog L)
  | seq (first second : Prog L)
  | either (left right : Prog L)
  | loop (body : Prog L)

/-- What is left to do: run a program, or give back a lock. -/
inductive Todo (L : Type u)
  | run (prog : Prog L)
  | release (lock : L) (mode : Mode)

variable {L : Type u} {ι : Type v}

namespace Prog

/-- One after the other. -/
def all : List (Prog L) → Prog L
  | [] => .work
  | [p] => p
  | p :: rest => .seq p (all rest)

/-- Locks are taken in the order of their ranks, from `floor` on. -/
def ordered (rank : L → Nat) : Nat → Prog L → Bool
  | _, .work => true
  | floor, .guard lock _ body => floor ≤ rank lock && body.ordered rank (rank lock + 1)
  | floor, .seq first second => first.ordered rank floor && second.ordered rank floor
  | floor, .either left right => left.ordered rank floor && right.ordered rank floor
  | floor, .loop body => body.ordered rank floor

end Prog

/-- The locks that a thread holds. -/
def held : List (Todo L) → List (L × Mode)
  | [] => []
  | .run _ :: rest => held rest
  | .release lock mode :: rest => (lock, mode) :: held rest

/-- The lock that a thread is about to take. -/
def wants : List (Todo L) → Option (L × Mode)
  | .run (.guard lock mode _) :: _ => some (lock, mode)
  | _ => none

/-- A step of a thread for which no lock is needed. -/
inductive Local : List (Todo L) → List (Todo L) → Prop
  | work {rest} : Local (.run .work :: rest) rest
  | seq {p q rest} : Local (.run (.seq p q) :: rest) (.run p :: .run q :: rest)
  | left {p q rest} : Local (.run (.either p q) :: rest) (.run p :: rest)
  | right {p q rest} : Local (.run (.either p q) :: rest) (.run q :: rest)
  | again {p rest} : Local (.run (.loop p) :: rest) (.run p :: .run (.loop p) :: rest)
  | leave {p rest} : Local (.run (.loop p) :: rest) rest
  | release {lock mode rest} : Local (.release lock mode :: rest) rest

/-- No thread holds the lock in a way that keeps it from being taken. -/
def Available (s : ι → List (Todo L)) (lock : L) (mode : Mode) : Prop :=
  ∀ j mode', (lock, mode') ∈ held (s j) → mode = .read ∧ mode' = .read

/-- A thread takes a step.  Readers may be let in past writers that wait. -/
inductive Step [DecidableEq ι] (s : ι → List (Todo L)) : (ι → List (Todo L)) → Prop
  | thread {i rest} : Local (s i) rest → Step s (Function.update s i rest)
  | acquire {i lock mode body rest} : s i = .run (.guard lock mode body) :: rest →
      Available s lock mode →
      Step s (Function.update s i (.run body :: .release lock mode :: rest))

/-- Thread `i` waits for a lock that `j` holds, or to read what `j` waits to write. -/
def WaitsFor (s : ι → List (Todo L)) (i j : ι) : Prop :=
  ∃ lock mode, wants (s i) = some (lock, mode) ∧
    ((∃ mode', (lock, mode') ∈ held (s j) ∧ ¬ (mode = .read ∧ mode' = .read)) ∨
      mode = .read ∧ wants (s j) = some (lock, .write))

/-- A thread can go on, even when readers have to wait for all writers that wait. -/
inductive CanGo (s : ι → List (Todo L)) (i : ι) : Prop
  | thread {rest} : Local (s i) rest → CanGo s i
  | acquire {lock mode body rest} : s i = .run (.guard lock mode body) :: rest →
      Available s lock mode →
      (mode = .read → ∀ j, wants (s j) ≠ some (lock, .write)) → CanGo s i

section Order

variable {rank : L → Nat}

/-- The least rank of a lock that a thread may still take. -/
def floor (rank : L → Nat) : List (Todo L) → Nat
  | [] => 0
  | .run _ :: rest => floor rank rest
  | .release lock _ :: _ => rank lock + 1

/-- What is left to do takes locks in order. -/
def InOrder (rank : L → Nat) : List (Todo L) → Prop
  | [] => True
  | .run p :: rest => p.ordered rank (floor rank rest) = true ∧ InOrder rank rest
  | .release lock _ :: rest => floor rank rest ≤ rank lock ∧ InOrder rank rest

theorem InOrder.thread {todo rest : List (Todo L)} (h : InOrder rank todo)
    (hlocal : Local todo rest) : InOrder rank rest := by
  cases hlocal with
  | work | leave | release => exact h.2
  | seq =>
      obtain ⟨hordered, hrest⟩ := h
      simp only [Prog.ordered, Bool.and_eq_true] at hordered
      exact ⟨hordered.1, hordered.2, hrest⟩
  | left =>
      obtain ⟨hordered, hrest⟩ := h
      simp only [Prog.ordered, Bool.and_eq_true] at hordered
      exact ⟨hordered.1, hrest⟩
  | right =>
      obtain ⟨hordered, hrest⟩ := h
      simp only [Prog.ordered, Bool.and_eq_true] at hordered
      exact ⟨hordered.2, hrest⟩
  | again => exact ⟨h.1, h.1, h.2⟩

theorem InOrder.acquire {lock : L} {mode : Mode} {body : Prog L} {rest : List (Todo L)}
    (h : InOrder rank (.run (.guard lock mode body) :: rest)) :
    InOrder rank (.run body :: .release lock mode :: rest) := by
  obtain ⟨hordered, hrest⟩ := h
  simp only [Prog.ordered, Bool.and_eq_true, decide_eq_true_eq] at hordered
  exact ⟨hordered.2, hordered.1, hrest⟩

/-- In order, every thread stays in order. -/
theorem InOrder.step [DecidableEq ι] {s s' : ι → List (Todo L)}
    (h : ∀ i, InOrder rank (s i)) (hstep : Step s s') (i : ι) : InOrder rank (s' i) := by
  cases hstep with
  | @thread j rest hlocal =>
      by_cases hij : i = j
      · subst hij
        rw [Function.update_self]
        exact (h i).thread hlocal
      · rw [Function.update_of_ne hij]
        exact h i
  | @acquire j lock mode body rest hguard _ =>
      by_cases hij : i = j
      · subst hij
        rw [Function.update_self]
        exact InOrder.acquire (hguard ▸ h i)
      · rw [Function.update_of_ne hij]
        exact h i

theorem InOrder.rank_lt_floor {todo : List (Todo L)} (h : InOrder rank todo) {lock : L}
    {mode : Mode} (hheld : (lock, mode) ∈ held todo) : rank lock < floor rank todo := by
  induction todo with
  | nil => cases hheld
  | cons item rest ih =>
      cases item with
      | run p => exact ih h.2 hheld
      | release lock' mode' =>
          rcases List.mem_cons.mp hheld with heq | hheld
          · cases heq
            exact Nat.lt_succ_self _
          · exact Nat.lt_of_lt_of_le (ih h.2 hheld) (Nat.le_succ_of_le h.1)

/-- The lock that a thread is about to take ranks above those that it holds. -/
theorem InOrder.rank_lt {todo : List (Todo L)} (h : InOrder rank todo)
    {lock lock' : L} {mode mode' : Mode} (hwants : wants todo = some (lock, mode))
    (hheld : (lock', mode') ∈ held todo) : rank lock' < rank lock := by
  cases todo with
  | nil => cases hwants
  | cons item rest =>
      cases item with
      | release => cases hwants
      | run p =>
          cases p with
          | guard l m body =>
              cases hwants
              obtain ⟨hordered, hrest⟩ := h
              simp only [Prog.ordered, Bool.and_eq_true, decide_eq_true_eq] at hordered
              exact Nat.lt_of_lt_of_le (hrest.rank_lt_floor hheld) hordered.1
          | work | seq | either | loop => cases hwants

end Order

section Exclusion

variable [DecidableEq ι] {s s' : ι → List (Todo L)}

/-- Who holds a lock for writing holds it alone. -/
def Exclusive (s : ι → List (Todo L)) : Prop :=
  ∀ i j lock mode, (lock, .write) ∈ held (s i) → (lock, mode) ∈ held (s j) → i = j

theorem Local.held_subset {todo rest : List (Todo L)} (h : Local todo rest) :
    held rest ⊆ held todo := by
  cases h with
  | release => exact List.subset_cons_self _ _
  | work | seq | left | right | again | leave => exact List.Subset.refl _

theorem Exclusive.step (h : Exclusive s) (hstep : Step s s') : Exclusive s' := by
  cases hstep with
  | @thread k rest hlocal =>
      have hsub : ∀ i, held (Function.update s k rest i) ⊆ held (s i) := by
        intro i
        by_cases hik : i = k
        · subst hik
          rw [Function.update_self]
          exact hlocal.held_subset
        · rw [Function.update_of_ne hik]
          exact List.Subset.refl _
      exact fun i j lock mode hi hj => h i j lock mode (hsub i hi) (hsub j hj)
  | @acquire k lock mode body rest hguard havailable =>
      -- what a thread holds afterwards it has held before, or it is the new lock
      have hcases : ∀ i l m, (l, m) ∈ held (Function.update s k
          (.run body :: .release lock mode :: rest) i) →
          (l, m) ∈ held (s i) ∨ i = k ∧ l = lock ∧ m = mode := by
        intro i l m hheld
        by_cases hik : i = k
        · subst hik
          rw [Function.update_self] at hheld
          rcases List.mem_cons.mp hheld with heq | hheld
          · cases heq
            exact Or.inr ⟨rfl, rfl, rfl⟩
          · rw [hguard]
            exact Or.inl hheld
        · rw [Function.update_of_ne hik] at hheld
          exact Or.inl hheld
      intro i j l m hi hj
      rcases hcases i l .write hi with hwriter | ⟨rfl, rfl, rfl⟩
      · rcases hcases j l m hj with hholder | ⟨rfl, rfl, rfl⟩
        · exact h i j l m hwriter hholder
        · exact absurd (havailable i .write hwriter).2 nofun
      · rcases hcases j l m hj with hholder | ⟨rfl, -, -⟩
        · exact absurd (havailable j m hholder).1 nofun
        · rfl

end Exclusion

section Deadlock

variable {s : ι → List (Todo L)} {i : ι}

/-- A thread that has something to do and cannot go on waits for another one. -/
theorem canGo_or_waitsFor (htodo : s i ≠ []) : CanGo s i ∨ ∃ j, WaitsFor s i j := by
  cases hs : s i with
  | nil => exact absurd hs htodo
  | cons item rest =>
      have hgo : ∀ {rest'}, Local (item :: rest) rest' → CanGo s i := fun hlocal =>
        .thread (hs ▸ hlocal)
      cases item with
      | release lock mode => exact Or.inl (hgo .release)
      | run p =>
          cases p with
          | work => exact Or.inl (hgo .work)
          | seq p q => exact Or.inl (hgo .seq)
          | either p q => exact Or.inl (hgo .left)
          | loop p => exact Or.inl (hgo .leave)
          | guard lock mode body =>
              have hwants : wants (s i) = some (lock, mode) := by rw [hs]; rfl
              by_contra hnone
              obtain ⟨hblocked, hnobody⟩ := not_or.mp hnone
              refine hblocked (.acquire hs (fun j mode' hheld => ?_) fun hread j hwrite => ?_)
              · by_contra hconflict
                exact hnobody ⟨j, lock, mode, hwants, Or.inl ⟨mode', hheld, hconflict⟩⟩
              · exact hnobody ⟨j, lock, mode, hwants, Or.inr ⟨hread, hwrite⟩⟩

theorem WaitsFor.busy {j : ι} (h : WaitsFor s i j) : s j ≠ [] := by
  rintro hnil
  obtain ⟨lock, mode, -, ⟨mode', hheld, -⟩ | ⟨-, hwants⟩⟩ := h
  · rw [hnil] at hheld
    cases hheld
  · rw [hnil] at hwants
    cases hwants

/-- How far a thread that waits is from one that can go on: locks of higher rank are
nearer, and with one lock writers are nearer than readers. -/
def distance (rank : L → Nat) (top : Nat) (todo : List (Todo L)) : Nat :=
  match wants todo with
  | none => 0
  | some (lock, .write) => 2 * (top - rank lock)
  | some (lock, .read) => 2 * (top - rank lock) + 1

/-- Along waiting, the ranks go up. -/
theorem WaitsFor.distance_lt {rank : L → Nat} {top : Nat} (htop : ∀ lock, rank lock < top)
    {j : ι} (h : WaitsFor s i j) (horder : InOrder rank (s j)) {k : ι}
    (hnext : WaitsFor s j k) :
    distance rank top (s j) < distance rank top (s i) := by
  obtain ⟨lock, mode, hwants, hcause⟩ := h
  obtain ⟨lock', mode', hwants', -⟩ := hnext
  have hlt := htop lock'
  unfold distance
  rw [hwants, hwants']
  rcases hcause with ⟨m, hheld, -⟩ | ⟨rfl, hwrite⟩
  · have hrank := horder.rank_lt hwants' hheld
    cases mode <;> cases mode' <;> simp only <;> omega
  · cases hwants'.symm.trans hwrite
    simp only
    omega

/-- Among threads that are in order, whoever has something to do can go on, or waits in
the end for a thread that can. -/
theorem waits_for_canGo {rank : L → Nat} {top : Nat} (htop : ∀ lock, rank lock < top)
    (horder : ∀ i, InOrder rank (s i)) (htodo : s i ≠ []) :
    ∃ j, ReflTransGen (WaitsFor s) i j ∧ CanGo s j := by
  induction hd : distance rank top (s i) using Nat.strongRecOn generalizing i with
  | ind d ih =>
      rcases canGo_or_waitsFor htodo with hgo | ⟨j, hwaits⟩
      · exact ⟨i, .refl, hgo⟩
      · rcases canGo_or_waitsFor hwaits.busy with hgo | ⟨k, hnext⟩
        · exact ⟨j, .single hwaits, hgo⟩
        · have hlt := hwaits.distance_lt htop (horder j) hnext
          obtain ⟨j', hpath, hgo⟩ := ih _ (hd ▸ hlt) hwaits.busy rfl
          exact ⟨j', .head hwaits hpath, hgo⟩

end Deadlock

section Runs

variable [DecidableEq ι] {progs : ι → Prog L} {s : ι → List (Todo L)}

/-- The states of threads that run the programs, over all interleavings. -/
def Reachable (progs : ι → Prog L) (s : ι → List (Todo L)) : Prop :=
  ReflTransGen Step (fun i => [Todo.run (progs i)]) s

/-- Threads that run ordered programs stay in order. -/
theorem Reachable.inOrder {rank : L → Nat}
    (hordered : ∀ i, (progs i).ordered rank 0 = true) (h : Reachable progs s) (i : ι) :
    InOrder rank (s i) := by
  induction h generalizing i with
  | refl => exact ⟨hordered i, trivial⟩
  | tail _ hstep ih => exact InOrder.step ih hstep i

theorem Reachable.exclusive (h : Reachable progs s) : Exclusive s := by
  induction h with
  | refl => exact fun i j lock mode hi => absurd hi List.not_mem_nil
  | tail _ hstep ih => exact ih.step hstep

end Runs

end LockOrders
