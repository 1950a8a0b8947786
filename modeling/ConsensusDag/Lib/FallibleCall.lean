/-
Calls on a state that may fail on their way.  A call that fails keeps the writes
it has made so far: nothing is undone.
-/
import Mathlib.Data.List.Basic

namespace FallibleCalls

universe u

/-- A call returns a value or fails, and leaves a state in both cases. -/
abbrev Call (ε σ α : Type u) := ExceptT ε (StateM σ) α

variable {ε σ α β : Type u}

/-- The state after a list of writes, the first one first. -/
def applied (writes : List (σ → σ)) (s : σ) : σ :=
  writes.foldl (fun s write => write s) s

theorem applied_append (writes writes' : List (σ → σ)) (s : σ) :
    applied (writes ++ writes') s = applied writes' (applied writes s) :=
  List.foldl_append

/-- What each write keeps, the list keeps. -/
theorem applied_induct {I : σ → Prop} {writes : List (σ → σ)} {s : σ} (hs : I s)
    (hwrite : ∀ write ∈ writes, ∀ t, I t → I (write t)) :
    I (applied writes s) := by
  induction writes generalizing s with
  | nil => exact hs
  | cons write rest ih =>
      rw [List.forall_mem_cons] at hwrite
      exact ih (hwrite.1 s hs) hwrite.2

namespace Call

def outcome (call : Call ε σ α) (s : σ) : Except ε α × σ :=
  StateT.run call.run s

/-- A computation that leaves the state alone. -/
def ofExcept (result : Except ε α) : Call ε σ α :=
  ExceptT.mk (pure result)

/-- An operation that goes through unless there is a fault. -/
def attempt (fault : Option ε) : Call ε σ PUnit :=
  match fault with
  | some e => throw e
  | none => pure ⟨⟩

@[simp] theorem outcome_ofExcept (result : Except ε α) (s : σ) :
    (ofExcept result).outcome s = (result, s) := rfl

@[simp] theorem outcome_get (s : σ) :
    (get : Call ε σ σ).outcome s = (.ok s, s) := rfl

@[simp] theorem outcome_modify (write : σ → σ) (s : σ) :
    (modify write : Call ε σ PUnit).outcome s = (.ok ⟨⟩, write s) := rfl

theorem outcome_bind (call : Call ε σ α) (next : α → Call ε σ β) (s : σ) :
    (call >>= next).outcome s = match call.outcome s with
      | (.ok a, s') => (next a).outcome s'
      | (.error e, s') => (.error e, s') := by
  unfold outcome
  rw [ExceptT.run_bind, StateT.run_bind]
  rcases StateT.run call.run s with ⟨result, s'⟩
  cases result with
  | ok a => rfl
  | error e => rfl

variable {call call' : Call ε σ α} {next next' : α → Call ε σ β} {s s' : σ}

theorem outcome_bind_ok {a : α} {t : σ} (h : call.outcome s = (.ok a, t)) :
    (call >>= next).outcome s = (next a).outcome t := by
  rw [outcome_bind, h]

theorem outcome_bind_error {e : ε} {t : σ} (h : call.outcome s = (.error e, t)) :
    (call >>= next).outcome s = (.error e, t) := by
  rw [outcome_bind, h]

theorem outcome_bind_eq_ok {b : β} :
    (call >>= next).outcome s = (.ok b, s') ↔ ∃ a t,
      call.outcome s = (.ok a, t) ∧ (next a).outcome t = (.ok b, s') := by
  cases hcall : call.outcome s with
  | mk result t =>
      cases result with
      | ok a =>
          rw [outcome_bind_ok hcall]
          constructor
          · exact fun h => ⟨a, t, rfl, h⟩
          · rintro ⟨_, _, heq, h⟩
            cases heq
            exact h
      | error e =>
          rw [outcome_bind_error hcall]
          constructor
          · exact fun h => nomatch h
          · rintro ⟨_, _, heq, -⟩
            cases heq

section Performs

/-- The call makes these writes: all of them when it returns, and when it fails
those up to some point. -/
def Performs (call : Call ε σ α) (writes : List (σ → σ)) (s : σ) : Prop :=
  match call.outcome s with
  | (.ok _, s') => s' = applied writes s
  | (.error _, s') => ∃ made, s' = applied (writes.take made) s

variable {writes writes' : List (σ → σ)}

theorem Performs.of_ok (h : Performs call writes s) {a : α}
    (hcall : call.outcome s = (.ok a, s')) : s' = applied writes s := by
  unfold Performs at h
  rwa [hcall] at h

theorem Performs.of_error (h : Performs call writes s) {e : ε}
    (hcall : call.outcome s = (.error e, s')) :
    ∃ made, s' = applied (writes.take made) s := by
  unfold Performs at h
  rwa [hcall] at h

theorem Performs.exists_take (h : Performs call writes s) :
    ∃ made, (call.outcome s).2 = applied (writes.take made) s := by
  cases hcall : call.outcome s with
  | mk result t =>
      cases result with
      | ok a => exact ⟨writes.length, by rw [List.take_length]; exact h.of_ok hcall⟩
      | error e => exact h.of_error hcall

theorem performs_pure (a : α) (s : σ) : Performs (pure a : Call ε σ α) [] s := rfl

theorem performs_attempt (fault : Option ε) (s : σ) :
    Performs (attempt fault) [] s := by
  cases fault with
  | none => rfl
  | some e => exact ⟨0, rfl⟩

theorem performs_modify (write : σ → σ) (s : σ) :
    Performs (modify write : Call ε σ PUnit) [write] s := rfl

theorem Performs.bind (h : Performs call writes s)
    (hnext : ∀ a, Performs (next a) writes' (applied writes s)) :
    Performs (call >>= next) (writes ++ writes') s := by
  cases hcall : call.outcome s with
  | mk result t =>
      cases result with
      | ok a =>
          obtain rfl := h.of_ok hcall
          have hrest := hnext a
          unfold Performs at hrest ⊢
          rw [outcome_bind_ok hcall]
          split at hrest
          · rw [applied_append]
            exact hrest
          · obtain ⟨made, hmade⟩ := hrest
            refine ⟨writes.length + made, ?_⟩
            rw [List.take_length_add_append, applied_append]
            exact hmade
      | error e =>
          obtain ⟨made, rfl⟩ := h.of_error hcall
          unfold Performs
          rw [outcome_bind_error hcall]
          refine ⟨min made writes.length, ?_⟩
          rw [List.take_append_of_le_length (Nat.min_le_right _ _),
            ← List.take_eq_take_min]

theorem performs_of_error {e : ε} (h : call.outcome s = (.error e, s)) :
    Performs (call >>= next) writes s := by
  unfold Performs
  rw [outcome_bind_error h]
  exact ⟨0, rfl⟩

theorem Performs.of_read {a : α} (hcall : call.outcome s = (.ok a, s))
    (h : Performs (next a) writes s) : Performs (call >>= next) writes s := by
  unfold Performs at h ⊢
  rwa [outcome_bind_ok hcall]

/-- A call that goes on from the state it is in. -/
theorem Performs.get_bind {next : σ → Call ε σ β}
    (h : Performs (next s) writes s) : Performs (get >>= next) writes s :=
  .of_read (outcome_get s) h

/-- A loop makes the writes of its turns. -/
theorem performs_forM {items : List β} {body : β → Call ε σ PUnit}
    {turn : β → List (σ → σ)} (hbody : ∀ b s, Performs (body b) (turn b) s)
    (s : σ) : Performs (items.forM body) (items.flatMap turn) s := by
  induction items generalizing s with
  | nil => exact performs_pure _ s
  | cons b items ih =>
      rw [List.flatMap_cons]
      change Performs (body b >>= fun _ => items.forM body) _ s
      exact (hbody b s).bind fun _ => ih _

end Performs

section Tracks

/-- Two calls give the same result, and leave related states. -/
def Tracks (R : σ → σ → Prop) (call call' : Call ε σ α) (s s' : σ) : Prop :=
  (call.outcome s).1 = (call'.outcome s').1 ∧
    R (call.outcome s).2 (call'.outcome s').2

variable {R : σ → σ → Prop}

/-- The second parts start from the states that the first parts return with. -/
theorem Tracks.bind_of_outcome (h : Tracks R call call' s s')
    (hnext : ∀ a t t', call.outcome s = (.ok a, t) →
      call'.outcome s' = (.ok a, t') → Tracks R (next a) (next' a) t t') :
    Tracks R (call >>= next) (call' >>= next') s s' := by
  obtain ⟨hresult, hstate⟩ := h
  unfold Tracks
  cases hcall : call.outcome s with
  | mk result t =>
      cases hcall' : call'.outcome s' with
      | mk result' t' =>
          rw [hcall, hcall'] at hresult hstate
          obtain rfl : result = result' := hresult
          cases result with
          | ok a =>
              rw [outcome_bind_ok hcall, outcome_bind_ok hcall']
              exact hnext a t t' hcall hcall'
          | error e =>
              rw [outcome_bind_error hcall, outcome_bind_error hcall']
              exact ⟨rfl, hstate⟩

theorem Tracks.bind (h : Tracks R call call' s s')
    (hnext : ∀ a t t', R t t' → Tracks R (next a) (next' a) t t') :
    Tracks R (call >>= next) (call' >>= next') s s' := by
  apply h.bind_of_outcome
  intro a t t' hcall hcall'
  have hstate := h.2
  rw [hcall, hcall'] at hstate
  exact hnext a t t' hstate

theorem Tracks.mono {R' : σ → σ → Prop} (h : Tracks R call call' s s')
    (hmono : ∀ t t', R t t' → R' t t') : Tracks R' call call' s s' :=
  ⟨h.1, hmono _ _ h.2⟩

theorem tracks_pure (a : α) (h : R s s') :
    Tracks R (pure a : Call ε σ α) (pure a) s s' := ⟨rfl, h⟩

theorem tracks_ofExcept (result : Except ε α) (h : R s s') :
    Tracks R (ofExcept result) (ofExcept result) s s' := ⟨rfl, h⟩

theorem tracks_attempt (fault : Option ε) (h : R s s') :
    Tracks R (attempt fault : Call ε σ PUnit) (attempt fault) s s' := by
  cases fault with
  | none => exact ⟨rfl, h⟩
  | some e => exact ⟨rfl, h⟩

theorem tracks_modify {write : σ → σ} (h : R (write s) (write s')) :
    Tracks R (modify write : Call ε σ PUnit) (modify write) s s' := ⟨rfl, h⟩

theorem Tracks.get_bind {next next' : σ → Call ε σ β}
    (h : Tracks R (next s) (next' s') s s') :
    Tracks R (get >>= next) (get >>= next') s s' := by
  unfold Tracks at h ⊢
  rwa [outcome_bind_ok (outcome_get s), outcome_bind_ok (outcome_get s')]

theorem tracks_forM {items : List β} {body : β → Call ε σ PUnit}
    (hbody : ∀ b t t', R t t' → Tracks R (body b) (body b) t t') (h : R s s') :
    Tracks R (items.forM body) (items.forM body) s s' := by
  induction items generalizing s s' with
  | nil => exact tracks_pure _ h
  | cons b items ih =>
      change Tracks R (body b >>= fun _ => items.forM body) _ s s'
      exact (hbody b s s' h).bind fun _ _ _ hstate => ih hstate

/-- A call whose result does not depend on the state. -/
theorem Performs.outcome_any {writes : List (σ → σ)} {a : α}
    (hwrites : ∀ t, Performs call writes t)
    (hblind : ∀ t, Tracks (fun _ _ => True) call call s t)
    (h : call.outcome s = (.ok a, s')) :
    s' = applied writes s ∧ ∀ t, call.outcome t = (.ok a, applied writes t) := by
  refine ⟨(hwrites s).of_ok h, fun t => ?_⟩
  have hresult := (hblind t).1
  rw [h] at hresult
  cases hcall : call.outcome t with
  | mk result t' =>
      rw [hcall] at hresult
      obtain rfl : Except.ok a = result := hresult
      rw [(hwrites t).of_ok hcall]

end Tracks

end Call

end FallibleCalls
