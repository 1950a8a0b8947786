/-
The order in which the stream reads, exactly.  After frame 0 it reads the first event
of a frame before the other events of the frame before that: no event is read twice,
and of the finalised frames the first event of frame 1 is never read.
-/
import ConsensusDag.Agreement
import ConsensusDag.StreamSafety

namespace ConsensusDag

open DAGcore Relation

variable {P D T H PK SK Sig : Type}

section Places

/-- The places that the stream has read when it is between two frames, with frame
number `f`.  Of a frame number above 0, it reads first the head of the next frame. -/
def placesBefore (length : Nat → Nat) : Nat → List (Nat × Nat)
  | 0 => []
  | 1 => (List.range (length 0)).map (Prod.mk 0)
  | f + 2 => placesBefore length (f + 1) ++
      (f + 2, 0) :: (List.range' 1 (length (f + 1) - 1)).map (Prod.mk (f + 1))

/-- The places that the stream has read when it waits for another frame, with
`first` frames final. -/
def streamPlaces (length : Nat → Nat) : Nat → List (Nat × Nat)
  | 0 => []
  | last + 1 => placesBefore length (max 1 last)

/-- The places that the stream has read with the cursor where it is. -/
def Cursor.passed (length : Nat → Nat) (cursor : Cursor) : List (Nat × Nat) :=
  match cursor.frame, cursor.event with
  | none, none => []
  | none, some event => (List.range event).map (Prod.mk 0)
  | some f, none => placesBefore length f
  | some f, some event => placesBefore length f ++
      (f + 1, 0) :: (List.range' 1 (event - 1)).map (Prod.mk f)

/-- Where the cursor can be when `first` frames are final. -/
inductive Cursor.Within (length : Nat → Nat) (first : Nat) : Cursor → Prop
  | zero {event : Nat} {tx : Option Nat} :
      event = 0 ∧ tx.getD 0 = 0 ∨ 0 < first ∧ event < length 0 →
      Within length first ⟨none, some event, tx⟩
  | between {f : Nat} {tx : Option Nat} :
      0 < f → 0 < first → f = 1 ∨ f < first → tx.getD 0 = 0 ∨ f + 1 < first →
      Within length first ⟨some f, none, tx⟩
  | inside {f event : Nat} {tx : Option Nat} :
      0 < f → f + 1 < first → 0 < event → event < length f →
      Within length first ⟨some f, some event, tx⟩

variable {length length' : Nat → Nat} {first first' : Nat}

theorem range'_prefix {s n m : Nat} (hle : n ≤ m) :
    List.range' s n <+: List.range' s m := by
  obtain ⟨d, rfl⟩ := Nat.exists_eq_add_of_le hle
  rw [← List.range'_append_1]
  exact List.prefix_append _ _

theorem passed_inside_append {f event : Nat} {tx : Option Nat} (hpos : 0 < event) :
    Cursor.passed length ⟨some f, some event, tx⟩ ++ [(f, event)] =
      placesBefore length f ++
        (f + 1, 0) :: (List.range' 1 event).map (Prod.mk f) := by
  obtain ⟨e, rfl⟩ := Nat.exists_eq_succ_of_ne_zero hpos.ne'
  rw [Nat.succ_eq_add_one, List.range'_1_concat, Nat.add_comm 1 e, List.map_append,
    ← List.cons_append, ← List.append_assoc]
  rfl

theorem placesBefore_prefix {f f' : Nat} (hle : f ≤ f') :
    placesBefore length f <+: placesBefore length f' := by
  induction hle with
  | refl => exact List.prefix_rfl
  | @step f' _ ih =>
      refine ih.trans ?_
      cases f' with
      | zero => exact List.nil_prefix
      | succ f' => exact List.prefix_append _ _

theorem placesBefore_congr {f : Nat} (h : ∀ g < f, length g = length' g) :
    placesBefore length f = placesBefore length' f := by
  induction f with
  | zero => rfl
  | succ f ih =>
      cases f with
      | zero => rw [placesBefore, placesBefore, h 0 Nat.zero_lt_one]
      | succ f =>
          rw [placesBefore, placesBefore, ih fun g hg => h g (by omega),
            h (f + 1) (by omega)]

/-- Of the frames up to a number, all is read but the first event of frame 1 and the
later events of the last one. -/
theorem mem_placesBefore {n : Nat} (hlength : ∀ f ≤ n + 1, 1 < f → 0 < length f)
    {f e : Nat} : (f, e) ∈ placesBefore length (n + 1) ↔
      f ≤ n + 1 ∧ e < length f ∧ (f, e) ≠ (1, 0) ∧ (f = n + 1 → e = 0) := by
  induction n with
  | zero =>
      simp only [placesBefore, List.mem_map, List.mem_range, Prod.mk.injEq, ne_eq]
      constructor
      · rintro ⟨e, he, rfl, rfl⟩
        exact ⟨by omega, he, by omega, by omega⟩
      · rintro ⟨hle, he, hne, hlast⟩
        obtain rfl : f = 0 := by omega
        exact ⟨e, he, rfl, rfl⟩
  | succ n ih =>
      have ih := ih fun f hf => hlength f (by omega)
      have hpos := hlength (n + 2) (by omega) (by omega)
      rw [placesBefore, List.mem_append, ih]
      simp only [List.mem_cons, List.mem_map, List.mem_range'_1, Prod.mk.injEq, ne_eq]
      constructor
      · rintro (⟨hle, he, hne, -⟩ | ⟨rfl, rfl⟩ | ⟨e, ⟨hpos, hlt⟩, rfl, rfl⟩)
        · exact ⟨by omega, he, hne, by omega⟩
        · exact ⟨by omega, hpos, by omega, fun _ => rfl⟩
        · exact ⟨by omega, by omega, by omega, by omega⟩
      · rintro ⟨hle, he, hne, hlast⟩
        rcases Nat.lt_trichotomy f (n + 1) with hlt | rfl | hgt
        · exact Or.inl ⟨by omega, he, hne, by omega⟩
        · rcases Nat.eq_zero_or_pos e with rfl | hpos
          · exact Or.inl ⟨by omega, he, hne, fun _ => rfl⟩
          · exact Or.inr (Or.inr ⟨e, by omega, rfl, rfl⟩)
        · exact Or.inr (Or.inl ⟨by omega, hlast (by omega)⟩)

theorem frame_le_of_mem_placesBefore {f : Nat} {place : Nat × Nat}
    (h : place ∈ placesBefore length f) : place.1 = 0 ∨ 1 < f ∧ place.1 ≤ f := by
  induction f with
  | zero => cases h
  | succ f ih =>
      cases f with
      | zero =>
          obtain ⟨e, -, rfl⟩ := List.mem_map.mp h
          exact Or.inl rfl
      | succ f =>
          rcases List.mem_append.mp h with h | h
          · have hle := ih h
            omega
          · rcases List.mem_cons.mp h with rfl | h
            · exact Or.inr ⟨by omega, Nat.le_refl _⟩
            · obtain ⟨e, -, rfl⟩ := List.mem_map.mp h
              exact Or.inr ⟨by omega, by omega⟩

/-- No place is read twice. -/
theorem placesBefore_nodup {n : Nat} (hlength : ∀ f ≤ n, 1 < f → 0 < length f) :
    (placesBefore length n).Nodup := by
  have hinj : ∀ f : Nat, Function.Injective (Prod.mk f : Nat → Nat × Nat) :=
    fun f e e' h => congrArg Prod.snd h
  induction n with
  | zero => exact List.nodup_nil
  | succ n ih =>
      cases n with
      | zero => exact List.nodup_range.map (hinj 0)
      | succ n =>
          have hbefore : ∀ f ≤ n + 1, 1 < f → 0 < length f :=
            fun f hf => hlength f (by omega)
          refine List.nodup_append.mpr ⟨ih hbefore, List.nodup_cons.mpr ⟨?_, ?_⟩, ?_⟩
          · intro hmem
            obtain ⟨e, -, heq⟩ := List.mem_map.mp hmem
            simp only [Prod.mk.injEq] at heq
            omega
          · exact (List.nodup_range' ..).map (hinj (n + 1))
          · rintro ⟨f, e⟩ hmem _ hmem' rfl
            obtain ⟨hle, -, -, hlast⟩ :=
              (mem_placesBefore hbefore).mp hmem
            rcases List.mem_cons.mp hmem' with heq | hmem'
            · cases heq
              omega
            · obtain ⟨e', hrange, heq⟩ := List.mem_map.mp hmem'
              cases heq
              have hpos := (List.mem_range'_1.mp hrange).1
              have hzero := hlast rfl
              omega

/-- Of the final frames, the stream reads all but the first event of frame 1, and
leaves the later events of the last frame for later. -/
theorem mem_streamPlaces (hlength : ∀ f < first, 0 < length f) {f e : Nat}
    (hf : f < first) (he : e < length f) : (f, e) ∈ streamPlaces length first ↔
      (f, e) ≠ (1, 0) ∧ (f ≠ 0 → f + 1 = first → e = 0) := by
  cases first with
  | zero => cases hf
  | succ last =>
      obtain ⟨n, hn⟩ : ∃ n, max 1 last = n + 1 := ⟨max 1 last - 1, by omega⟩
      rw [streamPlaces, hn, mem_placesBefore fun g hg hpos => hlength g (by omega)]
      constructor
      · rintro ⟨-, -, hne, hlast⟩
        exact ⟨hne, fun hpos hend => hlast (by omega)⟩
      · rintro ⟨hne, hlast⟩
        refine ⟨by omega, he, hne, fun hend => ?_⟩
        rcases Nat.eq_zero_or_pos f with rfl | hpos
        · omega
        · exact hlast (by omega) (by omega)

theorem streamPlaces_nodup (hlength : ∀ f < first, 0 < length f) :
    (streamPlaces length first).Nodup := by
  cases first with
  | zero => exact List.nodup_nil
  | succ last => exact placesBefore_nodup fun g hg hpos => hlength g (by omega)

variable {cursor : Cursor}

theorem Cursor.Within.mono (h : cursor.Within length first) (hle : first ≤ first') :
    cursor.Within length first' := by
  cases h with
  | zero h => exact .zero (h.imp id fun h => ⟨by omega, h.2⟩)
  | between hpos hfirst hf htx =>
      exact .between hpos (by omega) (hf.imp id (by omega)) (htx.imp id (by omega))
  | inside hpos hf hevent hlt => exact .inside hpos (by omega) hevent hlt

theorem Cursor.Within.congr (h : cursor.Within length first)
    (hsame : ∀ f < first, length f = length' f) : cursor.Within length' first := by
  cases h with
  | zero h =>
      refine .zero (h.imp id fun h => ⟨h.1, ?_⟩)
      rw [← hsame 0 h.1]
      exact h.2
  | between hpos hfirst hf htx => exact .between hpos hfirst hf htx
  | @inside f event _ hpos hf hevent hlt =>
      refine .inside hpos hf hevent ?_
      rw [← hsame f (by omega)]
      exact hlt

theorem Cursor.Within.passed_congr (h : cursor.Within length first)
    (hsame : ∀ f < first, length f = length' f) :
    cursor.passed length = cursor.passed length' := by
  cases h with
  | zero => rfl
  | between _ _ hf _ => exact placesBefore_congr fun g hg => hsame g (by omega)
  | inside _ hf _ _ =>
      exact congrArg (· ++ _) (placesBefore_congr fun g hg => hsame g (by omega))

theorem Cursor.Within.frame_lt (h : cursor.Within length first) {place : Nat × Nat}
    (hplace : place ∈ cursor.passed length) : place.1 < first := by
  cases h with
  | zero h =>
      obtain ⟨e, he, rfl⟩ := List.mem_map.mp hplace
      have hlt := List.mem_range.mp he
      omega
  | between hpos hfirst hf htx =>
      have hle := frame_le_of_mem_placesBefore hplace
      omega
  | inside hpos hf hevent hlt =>
      rcases List.mem_append.mp hplace with hplace | hplace
      · have hle := frame_le_of_mem_placesBefore hplace
        omega
      · rcases List.mem_cons.mp hplace with rfl | hplace
        · exact hf
        · obtain ⟨e, -, rfl⟩ := List.mem_map.mp hplace
          exact Nat.lt_of_succ_lt hf

/-- The place under the cursor is in a final frame, unless nothing of it is read. -/
theorem Cursor.Within.place_lt (h : cursor.Within length first) :
    cursor.tx.getD 0 = 0 ∨ cursor.place.1 < first := by
  cases h with
  | zero h => exact h.imp And.right And.left
  | between _ _ _ htx => exact htx
  | inside _ hf _ _ => exact Or.inr (Nat.lt_of_succ_lt hf)

theorem placesBefore_prefix_streamPlaces {f : Nat} (hfirst : 0 < first)
    (hf : f = 1 ∨ f < first) : placesBefore length f <+: streamPlaces length first := by
  cases first with
  | zero => exact absurd hfirst (Nat.lt_irrefl 0)
  | succ last => exact placesBefore_prefix (by omega)

/-- The head of the next frame, and then the first events after the head of this. -/
theorem crossed_prefix {f event : Nat} (hpos : 0 < f) (hle : event ≤ length f - 1) :
    placesBefore length f ++
        (f + 1, 0) :: (List.range' 1 event).map (Prod.mk f) <+:
      placesBefore length (f + 1) := by
  obtain ⟨k, rfl⟩ := Nat.exists_eq_succ_of_ne_zero hpos.ne'
  have hrange : List.range' 1 event <+: List.range' 1 (length (k + 1) - 1) :=
    range'_prefix hle
  have hrange := hrange.map (Prod.mk (k + 1))
  exact (List.prefix_append_right_inj _).mpr ((List.prefix_cons_inj _).mpr hrange)

/-- What is passed, with the place under the cursor if any of it is read, are the
first of the places that the stream reads. -/
theorem Cursor.Within.passed_prefix (h : cursor.Within length first) :
    cursor.passed length <+: streamPlaces length first ∧
      (cursor.tx.getD 0 = 0 ∨
        cursor.passed length ++ [cursor.place] <+: streamPlaces length first) := by
  cases h with
  | @zero event tx h =>
      rcases h with ⟨rfl, htx⟩ | ⟨hfirst, hlt⟩
      · exact ⟨List.nil_prefix, Or.inl htx⟩
      · have hrange : List.range event ++ [event] <+: List.range (length 0) := by
          rw [← List.range_succ, List.range_eq_range', List.range_eq_range']
          exact range'_prefix hlt
        have hnext := (hrange.map (Prod.mk 0)).trans
          (placesBefore_prefix_streamPlaces hfirst (Or.inl rfl))
        rw [List.map_append] at hnext
        exact ⟨(List.prefix_append _ _).trans hnext, Or.inr hnext⟩
  | @between f tx hpos hfirst hf htx =>
      refine ⟨placesBefore_prefix_streamPlaces hfirst hf, htx.imp id fun hlt => ?_⟩
      have hcross : placesBefore length f ++ [(f + 1, 0)] <+:
          placesBefore length (f + 1) := crossed_prefix hpos (Nat.zero_le _)
      exact hcross.trans (placesBefore_prefix_streamPlaces hfirst (Or.inr hlt))
  | @inside f event tx hpos hf hevent hlt =>
      have hcross := crossed_prefix hpos (Nat.le_sub_one_of_lt hlt)
      have hcross := hcross.trans
        (placesBefore_prefix_streamPlaces (by omega) (Or.inr hf))
      have hnext : Cursor.passed length ⟨some f, some event, tx⟩ ++ [(f, event)] =
          placesBefore length f ++
            (f + 1, 0) :: (List.range' 1 event).map (Prod.mk f) :=
        passed_inside_append hevent
      rw [← hnext] at hcross
      exact ⟨(List.prefix_append _ _).trans hcross, Or.inr hcross⟩

/-- When the stream waits, it has read all. -/
theorem Cursor.Within.passed_of_pending {last : Nat}
    (h : cursor.Within length (last + 1)) (hpending : reading last cursor = none) :
    cursor.passed length = streamPlaces length (last + 1) ∧ cursor.tx.getD 0 = 0 := by
  cases h with
  | zero h => cases hpending
  | inside => cases hpending
  | @between f tx hpos hfirst hf htx =>
      have hle : last ≤ f := by
        by_contra hlt
        simp [reading, hlt] at hpending
      have hmax : max 1 last = f := by omega
      refine ⟨?_, htx.resolve_right (by omega)⟩
      rw [streamPlaces, hmax]
      rfl

/-- Moving on inside an event that is read. -/
theorem Cursor.Within.more {last : Nat} (h : cursor.Within length (last + 1))
    (hlength : ∀ f ≤ last, 2 ≤ length f) {place : Nat × Nat}
    (hreading : reading last cursor = some place) (tx : Nat) :
    Cursor.Within length (last + 1) ⟨cursor.frame, cursor.event, some tx⟩ := by
  cases h with
  | zero h =>
      have hpos := hlength 0 (Nat.zero_le _)
      exact .zero (Or.inr ⟨by omega, by omega⟩)
  | @between f _ hpos hfirst hf _ =>
      have hlt : f < last := by
        by_contra hle
        simp [reading, hle] at hreading
      exact .between hpos hfirst hf (Or.inr (by omega))
  | inside hpos hf hevent hlt => exact .inside hpos hf hevent hlt

/-- Moving on from a place that is read to its end. -/
theorem Cursor.Within.advance {last : Nat} (h : cursor.Within length (last + 1))
    (hlength : ∀ f ≤ last, 2 ≤ length f) {f event : Nat}
    (hreading : reading last cursor = some (f, event)) {next : Cursor}
    (hnext : next = if event + 1 < length f then
      ⟨cursor.frame, some (event + 1), some 0⟩ else ⟨some (f + 1), none, some 0⟩) :
    next.Within length (last + 1) ∧
      next.passed length = cursor.passed length ++ [(f, event)] := by
  subst hnext
  have hplace := place_of_reading hreading
  cases h with
  | @zero i tx h =>
      simp only [Cursor.place, Option.getD_none, Prod.mk.injEq] at hplace
      obtain ⟨rfl, rfl⟩ := hplace
      have hpos := hlength 0 (Nat.zero_le _)
      split
      · rename_i hnext
        refine ⟨.zero (Or.inr ⟨by omega, hnext⟩), ?_⟩
        simp only [Cursor.passed, List.range_succ, List.map_append, List.map_cons,
          List.map_nil]
      · refine ⟨.between Nat.zero_lt_one (by omega) (Or.inl rfl) (Or.inl rfl), ?_⟩
        have hend : length 0 = i + 1 := by omega
        simp only [Cursor.passed, placesBefore, hend, List.range_succ, List.map_append,
          List.map_cons, List.map_nil]
  | @between g tx hpos hfirst hg htx =>
      simp only [Cursor.place, Option.getD_some, Prod.mk.injEq] at hplace
      obtain ⟨rfl, rfl⟩ := hplace
      have hlt : g < last := by
        by_contra hle
        simp [reading, hle] at hreading
      have hnext := hlength (g + 1) hlt
      have hlen := hlength g hlt.le
      rw [if_pos (by omega)]
      exact ⟨.inside hpos (by omega) Nat.zero_lt_one (by omega), rfl⟩
  | @inside g i tx hpos hg hevent hlt =>
      simp only [Cursor.place, Option.getD_some, Prod.mk.injEq] at hplace
      obtain ⟨rfl, rfl⟩ := hplace
      have hpassed : Cursor.passed length ⟨some g, some i, tx⟩ ++ [(g, i)] =
          placesBefore length g ++ (g + 1, 0) :: (List.range' 1 i).map (Prod.mk g) :=
        passed_inside_append hevent
      split
      · rename_i hnext
        refine ⟨.inside hpos hg (by omega) hnext, ?_⟩
        rw [hpassed]
        rfl
      · refine ⟨.between (by omega) (by omega) (Or.inr hg) (Or.inl rfl), ?_⟩
        obtain ⟨k, rfl⟩ := Nat.exists_eq_succ_of_ne_zero hpos.ne'
        have hend : length k.succ - 1 = i := by omega
        rw [hpassed, ← hend]
        rfl

end Places

namespace DAGcore

def frameLength (core : DAGcore P D T H PK SK Sig) (f : Nat) : Nat :=
  (core.store.getFrame f).events.length

/-- The items of the event at a place. -/
def placeItems (core : DAGcore P D T H PK SK Sig) (place : Nat × Nat) :
    List (D × P) :=
  match (core.store.getFrame place.1).events[place.2]? with
  | some record => core.recordItems record
  | none => []

/-- All that the stream hands out while `first` frames are final. -/
def streamItems (core : DAGcore P D T H PK SK Sig) (first : Nat) : List (D × P) :=
  (streamPlaces core.frameLength first).flatMap core.placeItems

end DAGcore

section Walk

variable {core core' : DAGcore P D T H PK SK Sig} {out items : List (D × P)}

/-- What is handed out are the items of the places passed, and the first ones of the
place under the cursor. -/
def Walked (out : List (D × P)) (core : DAGcore P D T H PK SK Sig) : Prop :=
  out = (core.cursor.passed core.frameLength).flatMap core.placeItems ++
    (core.placeItems core.cursor.place).take (core.currentTx.getD 0)

theorem frameLength_of_store (h : core'.store = core.store) :
    core'.frameLength = core.frameLength := by
  funext f
  rw [frameLength, h, frameLength]

theorem placeItems_of_store (h : core'.store = core.store) :
    core'.placeItems = core.placeItems := by
  funext place
  unfold placeItems recordItems
  rw [h]

theorem Walked.of_store (h : Walked out core) (hstore : core'.store = core.store)
    (hcursor : core'.cursor = core.cursor) : Walked out core' := by
  have htx : core'.currentTx = core.currentTx := congrArg Cursor.tx hcursor
  unfold Walked
  rw [hcursor, frameLength_of_store hstore, placeItems_of_store hstore, htx]
  exact h

/-- A node keeps its finalised frames. -/
structure KeepsFrames (core core' : DAGcore P D T H PK SK Sig) : Prop where
  le : core.firstNotFinalisedFrame ≤ core'.firstNotFinalisedFrame
  length : ∀ f < core.firstNotFinalisedFrame, core.frameLength f = core'.frameLength f
  items : ∀ place : Nat × Nat, place.1 < core.firstNotFinalisedFrame →
    core.placeItems place = core'.placeItems place

theorem Walked.of_keepsFrames (h : Walked out core)
    (hwithin : core.cursor.Within core.frameLength core.firstNotFinalisedFrame)
    (hcursor : core'.cursor = core.cursor) (hkeeps : KeepsFrames core core') :
    Walked out core' := by
  have htx : core'.currentTx = core.currentTx := congrArg Cursor.tx hcursor
  unfold Walked
  rw [hcursor, htx, ← hwithin.passed_congr hkeeps.length, h]
  congr 1
  · exact List.flatMap_congr fun place hplace =>
      hkeeps.items place (hwithin.frame_lt hplace)
  · rcases hwithin.place_lt with hzero | hlt
    · have hzero : core.currentTx.getD 0 = 0 := hzero
      rw [hzero, List.take_zero, List.take_zero]
    · rw [hkeeps.items _ hlt]

/-- A turn hands out the item under the cursor, if there is one, and moves on. -/
theorem Walked.turn {waker last : Nat} (h : Walked out core)
    (hwithin : core.cursor.Within core.frameLength (last + 1))
    (hlength : ∀ f ≤ last, 2 ≤ core.frameLength f)
    (hturn : (core.pollTurn waker last).result = some (items, core')) :
    Walked (out ++ items) core' ∧
      core'.cursor.Within core'.frameLength (last + 1) := by
  obtain ⟨f, i, hreading, hread⟩ := pollTurn_result hturn
  obtain ⟨record, e, hrecord, he, hitems, -, hcore⟩ := readEvent_result hread
  have hstore := (pollTurn_sameNode hturn).store
  have hplace := place_of_reading hreading
  have hread : core.placeItems (f, i) = e.items := by
    simp only [placeItems, hrecord, recordItems, he]
  have hcursor := advance_cursor core f i (core.currentTx.getD 0) (core.frameLength f)
    e.transactions.length
  rw [show core.advance f i _ (core.frameLength f) _ = core' from hcore.symm] at hcursor
  unfold Walked at h ⊢
  rw [hplace, hread] at h
  rw [frameLength_of_store hstore, placeItems_of_store hstore, h, hitems,
    List.append_assoc, ← List.take_add_one]
  by_cases hmore : core.currentTx.getD 0 + 1 < e.transactions.length
  · -- the event has another transaction
    rw [if_pos hmore] at hcursor
    have hsame : core'.cursor.place = (f, i) := by
      rw [hcursor]
      exact hplace
    have htx : core'.currentTx = some (core.currentTx.getD 0 + 1) :=
      congrArg Cursor.tx hcursor
    rw [hsame, hread, htx, hcursor]
    exact ⟨rfl, hwithin.more hlength hreading _⟩
  · rw [if_neg hmore] at hcursor
    obtain ⟨hwithin', hpassed⟩ := hwithin.advance hlength hreading hcursor
    have htx : core'.currentTx.getD 0 = 0 := by
      have htx : core'.currentTx = _ := congrArg Cursor.tx hcursor
      rw [htx]
      split <;> rfl
    have hall : e.items.length ≤ core.currentTx.getD 0 + 1 := by
      rw [Event.items, List.length_map]
      omega
    refine ⟨?_, hwithin'⟩
    rw [List.take_of_length_le hall, hpassed, htx, List.take_zero, List.append_nil,
      List.flatMap_append, List.flatMap_singleton, hread]

theorem Walked.prefix_streamItems {first : Nat} (h : Walked out core)
    (hwithin : core.cursor.Within core.frameLength first) :
    out <+: core.streamItems first := by
  obtain ⟨hpassed, hzero | hplace⟩ := hwithin.passed_prefix
  · have hzero : core.currentTx.getD 0 = 0 := hzero
    rw [h, hzero, List.take_zero, List.append_nil]
    exact hpassed.flatMap core.placeItems
  · have hall := hplace.flatMap core.placeItems
    rw [List.flatMap_append, List.flatMap_singleton] at hall
    rw [h]
    exact ((List.prefix_append_right_inj _).mpr (List.take_prefix _ _)).trans hall

/-- When a call ends in `Pending`, all has been handed out. -/
theorem Walked.eq_streamItems {last : Nat} (h : Walked out core)
    (hwithin : core.cursor.Within core.frameLength (last + 1))
    (hpending : reading last core.cursor = none) : out = core.streamItems (last + 1) := by
  obtain ⟨hpassed, hzero⟩ := hwithin.passed_of_pending hpending
  have hzero : core.currentTx.getD 0 = 0 := hzero
  rw [h, hzero, List.take_zero, List.append_nil, hpassed, streamItems]

/-- Nothing is finalised anew. -/
theorem KeepsFrames.of_store (hstore : core'.store = core.store)
    (hfirst : core'.firstNotFinalisedFrame = core.firstNotFinalisedFrame) :
    KeepsFrames core core' where
  le := hfirst.ge
  length f _ := congrFun (frameLength_of_store hstore).symm f
  items place _ := congrFun (placeItems_of_store hstore).symm place

/-- The finalisation point that a call goes by, or went by. -/
def Consumer.goesBy : Consumer P D → Option Nat
  | .looping _ last _ => some last
  | .waiting _ last _ => last
  | _ => none

/-- A stream that has handed out `out`. -/
structure Reads (out : List (D × P)) (str : Streaming P D T H PK SK Sig) : Prop where
  walked : Walked (out ++ str.consumer.items) str.core
  within : str.core.cursor.Within str.core.frameLength str.core.firstNotFinalisedFrame
  going : ∀ last, str.consumer.goesBy = some last →
    last < str.core.firstNotFinalisedFrame ∧
      str.core.cursor.Within str.core.frameLength (last + 1)
  pending : ∀ waker last wakes, str.consumer = .waiting waker (some last) wakes →
    reading last str.core.cursor = none

variable {str str' : Streaming P D T H PK SK Sig}

theorem Reads.keep (h : Reads out str) (hcursor : core'.cursor = str.core.cursor)
    (hkeeps : KeepsFrames str.core core') : Reads out ⟨core', str.consumer⟩ where
  walked := h.walked.of_keepsFrames h.within hcursor hkeeps
  within := by
    rw [hcursor]
    exact (h.within.congr hkeeps.length).mono hkeeps.le
  going last hlast := by
    obtain ⟨hlt, hwithin⟩ := h.going last hlast
    refine ⟨hlt.trans_le hkeeps.le, ?_⟩
    rw [hcursor]
    exact hwithin.congr fun f hf => hkeeps.length f (by omega)
  pending waker last wakes hwaiting := by
    rw [hcursor]
    exact h.pending waker last wakes hwaiting

/-- The consumer goes on to a state in which no call is in the loop. -/
theorem Reads.goOn (h : Reads out str) {consumer : Consumer P D}
    (hitems : out ++ str.consumer.items = items ++ consumer.items)
    (hgoes : consumer.goesBy = none) (hstore : core'.store = str.core.store)
    (hlast : core'.lastFinalisedFrame = str.core.lastFinalisedFrame)
    (hcursor : core'.cursor = str.core.cursor) : Reads items ⟨core', consumer⟩ := by
  have hfirst : core'.firstNotFinalisedFrame = str.core.firstNotFinalisedFrame := by
    rw [firstNotFinalisedFrame, hlast, firstNotFinalisedFrame]
  refine ⟨?_, ?_, ?_, ?_⟩
  · exact hitems ▸ h.walked.of_store hstore hcursor
  · rw [hcursor, hfirst, frameLength_of_store hstore]
    exact h.within
  · intro last hlast
    rw [hgoes] at hlast
    cases hlast
  · rintro waker last wakes hwaiting
    cases hwaiting
    cases hgoes

/-- A section of a call reads on. -/
theorem Reads.poll (h : Reads out str)
    (hlength : ∀ f < str.core.firstNotFinalisedFrame, 2 ≤ str.core.frameLength f)
    (hsection : PollSection str items str') : Reads (out ++ items) str' := by
  -- a turn of the loop that goes by `last`
  have hturn : ∀ {waker last log handed core'}, str.consumer = .looping waker last log →
      (str.core.pollTurn waker last).result = some (handed, core') →
      Walked (out ++ handed) core' ∧ str.core.SameNode core' ∧
        last < core'.firstNotFinalisedFrame ∧
        core'.cursor.Within core'.frameLength (last + 1) := by
    intro waker last log handed core' hlooping hresult
    obtain ⟨hlt, hwithin⟩ := h.going last (by rw [hlooping]; rfl)
    have hwalked := h.walked
    rw [hlooping] at hwalked
    have hsame := pollTurn_sameNode hresult
    obtain ⟨hwalked', hwithin'⟩ := Walked.turn hwalked hwithin
      (fun f hf => hlength f (by omega)) hresult
    rw [show out ++ (Consumer.looping waker last log).items = out from
      List.append_nil out] at hwalked'
    exact ⟨hwalked', hsame, by rwa [hsame.firstNotFinalisedFrame], hwithin'⟩
  cases hsection with
  | quit hresting _ | enter waker hresting _ =>
      refine h.goOn ?_ rfl rfl rfl rfl
      rw [Service.items_of_resting hresting, List.append_nil]
      exact (List.append_nil _).symm
  | readNone hentered _ =>
      refine h.goOn ?_ rfl rfl rfl rfl
      rw [hentered, List.append_nil]
      rfl
  | readSome hentered hlast =>
      have hfirst := firstNotFinalisedFrame_of_last hlast
      have hwalked := h.walked
      rw [hentered] at hwalked
      refine ⟨by rwa [List.append_nil], h.within, ?_, nofun⟩
      rintro last ⟨⟩
      refine ⟨by rw [hfirst]; omega, ?_⟩
      rw [← hfirst]
      exact h.within
  | turn hlooping hagain =>
      obtain ⟨hwalked, hsame, hlt, hwithin⟩ :=
        hturn hlooping (congrArg PollTurn.result hagain)
      refine ⟨?_, hwithin.mono hlt, ?_, ?_⟩
      · rwa [hlooping, show (Consumer.looping _ _ _ : Consumer P D).items = [] from rfl,
          List.append_nil]
      · intro last hlast
        rw [hlooping] at hlast
        cases hlast
        exact ⟨hlt, hwithin⟩
      · intro _ _ _ hwaiting
        rw [hlooping] at hwaiting
        cases hwaiting
  | @pend waker last log core' hlooping hpending =>
      obtain ⟨hreading, rfl⟩ := pollTurn_pending hpending
      obtain ⟨hlt, hwithin⟩ := h.going last (by rw [hlooping]; rfl)
      have hwalked := h.walked
      rw [hlooping] at hwalked
      refine ⟨?_, h.within, ?_, ?_⟩
      · rw [List.append_nil]
        exact Walked.of_store hwalked rfl rfl
      · rintro last ⟨⟩
        exact ⟨hlt, hwithin⟩
      · rintro _ _ _ ⟨⟩
        exact hreading
  | emit hlooping hdata =>
      obtain ⟨hwalked, hsame, hlt, hwithin⟩ :=
        hturn hlooping (congrArg PollTurn.result hdata)
      refine ⟨?_, hwithin.mono hlt, nofun, nofun⟩
      rwa [List.append_nil]
  | deliver hdelivering =>
      refine h.goOn ?_ rfl rfl rfl rfl
      rw [hdelivering]
      exact (List.append_nil _).symm

end Walk

section Runs

variable [LinearOrder P] [LinearOrder H] [Inhabited H] {net : Network P PK SK}
  {env : Env P D T H PK SK Sig} {received : DAGcore P D T H PK SK Sig →
    Event P D T H Sig → Prop}
  {core core' : DAGcore P D T H PK SK Sig} {dag : EventDag env net.peers}
  {inserted inserted' : List (HashEvent P D T H)}

theorem DagInv.keepsFrames (h : DagInv dag inserted core)
    (h' : DagInv dag inserted' core')
    (hle : core.firstNotFinalisedFrame ≤ core'.firstNotFinalisedFrame) :
    KeepsFrames core core' where
  le := hle
  length f hf := by
    rw [frameLength, h.getFrame_eq h' hf (hf.trans_le hle), frameLength]
  items place hlt := by
    unfold placeItems
    rw [← h.getFrame_eq h' hlt (hlt.trans_le hle)]
    split
    · exact h.recordItems_eq h' hle hlt (List.mem_of_getElem? ‹_›)
    · rfl

theorem NodeStep.cursor_eq {requests : List (SyncReq P)}
    {replies : List (Answer P D T H Sig)} {n n' : NodeState P D T H PK SK Sig}
    {out : Output P D T H Sig} (h : NodeStep env requests replies n n' out) :
    n'.core.cursor = n.core.cursor := by
  rcases h.core_cases with ⟨-, -, -, hcursor⟩ | ⟨event, hinsert, -⟩
  · exact hcursor
  · obtain ⟨-, ⟨ins⟩⟩ := insertEvent_eq_ok hinsert
    obtain ⟨hframe, hevent, htx, -⟩ := ins.cursor_eq
    rw [cursor, hframe, hevent, htx, cursor]

namespace Service

variable {s s' : Service P D T H PK SK Sig} {i : P}

/-- In every run each stream reads its walk. -/
theorem Reachable.reads (hhonest : net.Honest env) (hn : 2 ≤ net.peers.length)
    (h : Reachable net env Unheld s) (hfree : net.CollisionFree env s.world) :
    ∀ i ∈ net.ids, Reads (s.delivered i) (s.streaming i) := by
  obtain ⟨s₀, hinit, hrun⟩ := h
  induction hrun with
  | refl =>
      intro i hi
      obtain ⟨core, hnew, hnode⟩ := hinit.world.node i hi
      have hcore : (s₀.streaming i).core = core := congrArg NodeState.core hnode
      obtain ⟨hcursor, hlast⟩ := new_fresh hnew
      have hidle : (s₀.streaming i).consumer = .idle := hinit.consumers i hi
      have htx : core.currentTx = some 0 := congrArg Cursor.tx hcursor
      rw [hinit.delivered i hi]
      refine ⟨?_, ?_, ?_, ?_⟩
      · rw [hcore, hidle, Walked, hcursor, htx]
        rfl
      · rw [hcore, hcursor]
        exact .zero (Or.inl ⟨rfl, rfl⟩)
      · rw [hidle]
        nofun
      · rw [hidle]
        nofun
  | @tail s s' hrun hstep ih =>
      have hreads := ih (hfree.of_subset hstep.created_subset)
      obtain ⟨dag, -, -, hfollows, hfollows'⟩ :=
        Reachable.follow_one_graph hhonest ⟨s₀, hinit, hrun⟩ (.single hstep) hfree
      cases hstep with
      | @node j n out hj hnode hreceived =>
          intro i hi
          by_cases hij : i = j
          · subst hij
            obtain ⟨inserted, hbefore⟩ := (hfollows i hi).node
            obtain ⟨inserted', hafter⟩ := (hfollows' i hi).node
            have hle := (Step.node hj hnode hreceived).first_le i
            rw [node_streaming_self] at hafter hle ⊢
            have hkeeps := hbefore.dagInv.keepsFrames hafter.dagInv hle
            exact (hreads i hi).keep hnode.cursor_eq
              ⟨hkeeps.le, hkeeps.length, hkeeps.items⟩
          · rw [node_streaming_of_ne _ _ _ hij]
            exact hreads i hi
      | @poll j items after hj hsection =>
          intro i hi
          by_cases hij : i = j
          · subst hij
            obtain ⟨inserted, hbefore⟩ := (hfollows i hi).node
            rw [poll_streaming_self, poll_delivered_self]
            refine (hreads i hi).poll (fun f hf => ?_) hsection
            exact hbefore.dagInv.two_le_length hn hf
          · rw [poll_streaming_of_ne _ _ _ hij, poll_delivered_of_ne _ _ _ hij]
            exact hreads i hi

/-- What a stream hands out, exactly, over all interleavings of the sections of its
calls with the rest of the network: the first items of its walk.  When it waits, it has
handed out all of the walk up to the finalisation point that its call went by.  The walk
goes over no event twice; of the finalised events it leaves out the first one of frame 1,
for good, and those after the first of the last frame, until another frame is
finalised. -/
theorem stream_walks (hhonest : net.Honest env) (hn : 2 ≤ net.peers.length)
    (h : Reachable net env Unheld s) (hfree : net.CollisionFree env s.world)
    (hi : i ∈ net.ids) :
    let core := (s.world.nodes i).core
    let first := core.firstNotFinalisedFrame
    s.delivered i ++ (s.consumers i).items <+: core.streamItems first ∧
      (∀ waker last wakes, s.consumers i = .waiting waker (some last) wakes →
        s.delivered i = core.streamItems (last + 1)) ∧
      (streamPlaces core.frameLength first).Nodup ∧
      ∀ f < first, ∀ e < core.frameLength f,
        ((f, e) ∈ streamPlaces core.frameLength first ↔
          (f, e) ≠ (1, 0) ∧ (f ≠ 0 → f + 1 = first → e = 0)) := by
  have hreads := h.reads hhonest hn hfree i hi
  obtain ⟨dag, -, -, hfollows, -⟩ := h.follow_one_graph hhonest .refl hfree
  obtain ⟨inserted, hnode⟩ := (hfollows i hi).node
  have hlength : ∀ f < (s.world.nodes i).core.firstNotFinalisedFrame,
      0 < (s.world.nodes i).core.frameLength f := fun f hf =>
    Nat.zero_lt_of_lt (hnode.dagInv.two_le_length hn hf)
  refine ⟨?_, ?_, streamPlaces_nodup hlength, fun f hf e he =>
    mem_streamPlaces hlength hf he⟩
  · exact hreads.walked.prefix_streamItems hreads.within
  · intro waker last wakes hwaiting
    have hconsumer : (s.streaming i).consumer = .waiting waker (some last) wakes :=
      hwaiting
    have hwalked := hreads.walked
    rw [hconsumer] at hwalked
    obtain ⟨-, hwithin⟩ := hreads.going last (by rw [hconsumer]; rfl)
    have hall := hwalked.eq_streamItems hwithin (hreads.pending _ _ _ hconsumer)
    rwa [show (Consumer.waiting waker (some last) wakes : Consumer P D).items = []
      from rfl, List.append_nil] at hall

end Service

end Runs

namespace TwoPeers

/-- With three frames final the second peer has been handed an item of frame 2 and one
of frame 1, and waits. -/
theorem caughtUp_walks :
    caughtUp.1.delivered 1 = [(9, 1), (8, 0)] ∧
      caughtUp.1.consumers 1 = .waiting 5 (some 2) 0 ∧
      caughtUp.1.delivered 1 = (caughtUp.1.world.nodes 1).core.streamItems 3 := by
  have hwaiting : caughtUp.1.consumers 1 = .waiting 5 (some 2) 0 := by decide +kernel
  have hwalks := Service.stream_walks honest (by decide) reachable_caughtUp
    collisionFree_caughtUp (i := 1) (by decide)
  exact ⟨by decide +kernel, hwaiting, hwalks.2.1 5 2 0 hwaiting⟩

end TwoPeers

end ConsensusDag
