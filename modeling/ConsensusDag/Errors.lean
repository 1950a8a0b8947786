/-
The ways in which a call can fail: an error value handed to the caller, a panic,
or a recursion that never comes back.
-/
import Mathlib.Data.List.Basic

namespace ConsensusDag

/-- The crate's error type.  The errors of linked crates are kept as text. -/
inductive Error
  | base (message : String)
  | bincode (message : String)
  | sled (message : String)
  | io (message : String)
  | serdeJson (message : String)
  | noneError
  | libHash (message : String)
deriving DecidableEq, Repr

/-- How a call ends when it does not return a value. -/
inductive Failure
  | err (error : Error)
  | panic
  | stackOverflow
deriving DecidableEq, Repr

abbrev Result := Except Failure

/-- `unwrap`: an error value becomes a panic. -/
def Result.unwrap {α : Type} : Result α → Result α
  | .error (.err _) => .error .panic
  | result => result

@[simp] theorem Result.unwrap_eq_ok {α : Type} {result : Result α} {value : α} :
    result.unwrap = .ok value ↔ result = .ok value := by
  unfold Result.unwrap
  split <;> simp

/-- A computation with a continuation succeeds when both of its parts do. -/
theorem Result.bind_eq_ok {α β : Type} {result : Result α}
    {next : α → Result β} {value : β} :
    (result >>= next) = .ok value ↔
      ∃ a, result = .ok a ∧ next a = .ok value := by
  cases result <;> simp [bind, Except.bind]

/-- Two continuations that agree on what is computed before them. -/
theorem Result.bind_congr {α β : Type} {result : Result α}
    {next next' : α → Result β} (h : ∀ a, result = .ok a → next a = next' a) :
    (result >>= next) = (result >>= next') := by
  cases result with
  | error failure => rfl
  | ok a => exact h a rfl

/-- The rule for a loop that can fail: what a turn keeps, for the items done so
far, holds of a result. -/
theorem Result.foldlM_induct {α σ : Type} {body : σ → α → Result σ}
    {items : List α} {s s' : σ} {I : List α → σ → Prop}
    (h : items.foldlM body s = .ok s') (hnil : I [] s)
    (hstep : ∀ done a s s', done ++ [a] <+: items → I done s →
      body s a = .ok s' → I (done ++ [a]) s') : I items s' := by
  suffices hrun : ∀ done rest s, done ++ rest = items → I done s →
      rest.foldlM body s = .ok s' → I items s' from hrun [] items s rfl hnil h
  intro done rest
  induction rest generalizing done with
  | nil =>
      rintro s rfl hdone hfold
      cases hfold
      rwa [List.append_nil]
  | cons a rest ih =>
      rintro s hitems hdone hfold
      rw [List.foldlM_cons, Result.bind_eq_ok] at hfold
      obtain ⟨s₁, hbody, hfold⟩ := hfold
      have hsplit : done ++ [a] ++ rest = items := by
        rw [List.append_assoc]
        exact hitems
      exact ih (done ++ [a]) s₁ hsplit
        (hstep done a s s₁ ⟨rest, hsplit⟩ hdone hbody) hfold

/-- A loop ends where a turn ends from whatever the turns before it have left. -/
theorem Result.foldlM_ends {α σ : Type} {body : σ → α → Result σ}
    (h : ∀ s a, ∃ s', body s a = .ok s') (items : List α) (s : σ) :
    ∃ s', items.foldlM body s = .ok s' := by
  induction items generalizing s with
  | nil => exact ⟨s, rfl⟩
  | cons a rest ih =>
      obtain ⟨s₁, hs₁⟩ := h s a
      obtain ⟨s', hs'⟩ := ih s₁
      refine ⟨s', ?_⟩
      rw [List.foldlM_cons, hs₁]
      exact hs'

/-- The results of a loop that collects are those of its items. -/
theorem Result.mem_mapM {α β : Type} {body : α → Result β} {items : List α}
    {results : List β} (h : items.mapM body = .ok results) {b : β} :
    b ∈ results ↔ ∃ a ∈ items, body a = .ok b := by
  induction items generalizing results with
  | nil =>
      cases h
      simp
  | cons a items ih =>
      simp only [List.mapM_cons, Result.bind_eq_ok] at h
      obtain ⟨b₁, hb₁, rest, hrest, h⟩ := h
      cases h
      rw [List.mem_cons, ih hrest]
      constructor
      · rintro (rfl | ⟨a', ha', hb⟩)
        · exact ⟨a, List.mem_cons_self, hb₁⟩
        · exact ⟨a', List.mem_cons_of_mem _ ha', hb⟩
      · rintro ⟨a', ha', hb⟩
        rcases List.mem_cons.mp ha' with rfl | ha'
        · exact Or.inl (Except.ok.inj (hb.symm.trans hb₁))
        · exact Or.inr ⟨a', ha', hb⟩

theorem Result.exists_of_mapM {α β : Type} {body : α → Result β} {items : List α}
    {results : List β} (h : items.mapM body = .ok results) {a : α}
    (ha : a ∈ items) : ∃ b, body a = .ok b := by
  induction items generalizing results with
  | nil => cases ha
  | cons a₁ items ih =>
      simp only [List.mapM_cons, Result.bind_eq_ok] at h
      obtain ⟨b₁, hb₁, rest, hrest, -⟩ := h
      rcases List.mem_cons.mp ha with rfl | ha
      · exact ⟨b₁, hb₁⟩
      · exact ih hrest ha

/-- It fails as one of its turns does. -/
theorem Result.mapM_error {α β : Type} {body : α → Result β} {items : List α}
    {failure : Failure} (h : items.mapM body = .error failure) :
    ∃ a ∈ items, body a = .error failure := by
  induction items with
  | nil => cases h
  | cons a items ih =>
      rw [List.mapM_cons] at h
      cases ha : body a with
      | error failure' =>
          rw [ha] at h
          cases h
          exact ⟨a, List.mem_cons_self, ha⟩
      | ok b =>
          rw [ha] at h
          cases hrest : items.mapM body with
          | error failure' =>
              simp only [hrest, bind, Except.bind] at h
              cases h
              obtain ⟨a', ha', hbody⟩ := ih hrest
              exact ⟨a', List.mem_cons_of_mem _ ha', hbody⟩
          | ok rest =>
              simp only [hrest, bind, Except.bind] at h
              cases h

/-- A loop that collects ends where each of its turns does. -/
theorem Result.mapM_ends_iff {α β : Type} {body : α → Result β} {items : List α} :
    (∃ results, items.mapM body = .ok results) ↔
      ∀ a ∈ items, ∃ b, body a = .ok b := by
  constructor
  · rintro ⟨results, h⟩ a ha
    exact Result.exists_of_mapM h ha
  · intro h
    induction items with
    | nil => exact ⟨[], rfl⟩
    | cons a items ih =>
        obtain ⟨b, hb⟩ := h a List.mem_cons_self
        obtain ⟨rest, hrest⟩ := ih fun a' ha' => h a' (List.mem_cons_of_mem _ ha')
        refine ⟨b :: rest, ?_⟩
        rw [List.mapM_cons, hb]
        simp only [bind, Except.bind, hrest]
        rfl

/-- `usize::MAX` where `usize` has 64 bits. -/
def usizeMax : Nat := 0xffffffffffffffff

/-- Addition on `usize`; an overflow is a panic. -/
def usizeAdd (a b : Nat) : Result Nat :=
  if a + b ≤ usizeMax then .ok (a + b) else .error .panic

theorem usizeAdd_eq_ok {a b c : Nat} (h : usizeAdd a b = .ok c) : c = a + b := by
  unfold usizeAdd at h
  split at h
  · cases h
    rfl
  · cases h

/-- `PartialEq::eq` for `Error`, on a stack with room for `depth` more calls.
The arm for `NoneError` calls the same function again. -/
def Error.eq : Nat → Error → Error → Result Bool
  | 0, _, _ => .error .stackOverflow
  | depth + 1, .noneError, other => Error.eq depth other .noneError
  | _ + 1, .sled left, .sled right => .ok (decide (left = right))
  | _ + 1, _, _ => .ok false

end ConsensusDag
