/-
What the store of a node holds of an event graph: a vertex under each hash, with
the frame number the graph gives it, and flag tables that list the roots the
vertex sees.  Tables are complete only from a frame on, since older entries are
dropped when parents' tables are merged.
-/
import ConsensusDag.EventDag

namespace ConsensusDag

open ParentGraphs ParentGraph QuorumGraph AssocTables

variable {P D T H PK SK Sig : Type} [LinearOrder P] [LinearOrder H]
  [Inhabited H] {env : Env P D T H PK SK Sig} {peers : List (DAGPeer P PK)}

/-- A flag table lists only roots that the vertex sees, all those from frame
`first` on, and the vertex itself when it is a root. -/
structure TableInv (dag : EventDag env peers) (v : dag.Vertex) (first : Nat)
    (ft : FlagTable H) : Prop where
  sound : ∀ k f, ft.lookup k = some f → ∃ r, dag.hashOf r = k ∧
    dag.graph.Reaches r v ∧ dag.graph.IsRoot r ∧ dag.graph.frame r = f
  complete : ∀ r, dag.graph.Reaches r v → dag.graph.IsRoot r →
    first ≤ dag.graph.frame r → ft.lookup (dag.hashOf r) = some (dag.graph.frame r)
  own : dag.graph.IsRoot v →
    ft.lookup (dag.hashOf v) = some (dag.graph.frame v)

/-- The store holds exactly the vertices of `S`. -/
structure StoreInv (dag : EventDag env peers) (S : Set dag.Vertex)
    (first : Nat) (store : SledStore P D T H Sig) : Prop where
  stored : ∀ k e, store.event (.hash k) = some e → ∃ v ∈ S, dag.hashOf v = k ∧
    e.toHashEvent = v.1 ∧ e.hash = k ∧ e.frameNumber = dag.graph.frame v
  present : ∀ v ∈ S, ∃ e, store.event (.hash (dag.hashOf v)) = some e
  table : ∀ v ∈ S, ∃ ft, store.flagTable (dag.hashOf v) = some ft ∧
    TableInv dag v first ft
  record : ∀ f record, record ∈ (store.getFrame f).events ↔
    ∃ v ∈ S, dag.graph.frame v = f ∧
      record = ⟨dag.hashOf v, v.1.lamportTimestamp⟩
  record_nodup : ∀ f, (store.getFrame f).events.Nodup

variable {dag : EventDag env peers} {S : Set dag.Vertex} {first : Nat}
  {store : SledStore P D T H Sig}

theorem TableInv.mono {v : dag.Vertex} {first' : Nat} {ft : FlagTable H}
    (h : TableInv dag v first ft) (hle : first ≤ first') :
    TableInv dag v first' ft :=
  { h with
    complete := fun r hr hroot hf => h.complete r hr hroot (hle.trans hf) }

/-- The entries of two tables of the graph agree. -/
theorem TableInv.agree {v w : dag.Vertex} {ft ft' : FlagTable H}
    {first' : Nat} (h : TableInv dag v first ft) (h' : TableInv dag w first' ft')
    {k : H} {a b : Nat} (ha : ft.lookup k = some a) (hb : ft'.lookup k = some b) :
    a = b := by
  obtain ⟨r, hr, _, _, rfl⟩ := h.sound k a ha
  obtain ⟨r', hr', _, _, rfl⟩ := h'.sound k b hb
  rw [EventDag.hashOf_injective (hr.trans hr'.symm)]

namespace StoreInv

theorem empty : StoreInv dag ∅ first
    (SledStore.empty : SledStore P D T H Sig) where
  stored k e h := by cases h
  present v hv := hv.elim
  table v hv := hv.elim
  record f record := by simp [SledStore.empty, SledStore.getFrame, default]
  record_nodup f := by simp [SledStore.empty, SledStore.getFrame, default]

theorem mono {first' : Nat} (h : StoreInv dag S first store)
    (hle : first ≤ first') : StoreInv dag S first' store where
  stored := h.stored
  present := h.present
  table v hv := by
    obtain ⟨ft, hft, htable⟩ := h.table v hv
    exact ⟨ft, hft, htable.mono hle⟩
  record := h.record
  record_nodup := h.record_nodup

theorem congr_set {S' : Set dag.Vertex} (h : StoreInv dag S first store)
    (heq : S = S') : StoreInv dag S' first store :=
  heq ▸ h

/-- The event stored under the hash of a vertex. -/
theorem lookup_vertex (h : StoreInv dag S first store) {v : dag.Vertex}
    (hv : v ∈ S) : ∃ e, store.event (.hash (dag.hashOf v)) = some e ∧
      e.toHashEvent = v.1 ∧ e.hash = dag.hashOf v ∧
      e.frameNumber = dag.graph.frame v := by
  obtain ⟨e, he⟩ := h.present v hv
  obtain ⟨w, _, hhash, hevent, hself, hframe⟩ := h.stored _ e he
  have hwv : w = v := EventDag.hashOf_injective hhash
  subst hwv
  exact ⟨e, he, hevent, hself, hframe⟩

/-- Writing a vertex with its frame number and a table of what it sees. -/
theorem write (h : StoreInv dag S first store) {v : dag.Vertex} (hv : v ∉ S)
    {e : Event P D T H Sig} {ft : FlagTable H} (hevent : e.toHashEvent = v.1)
    (hhash : e.hash = dag.hashOf v) (hframe : e.frameNumber = dag.graph.frame v)
    (htable : TableInv dag v first ft) :
    StoreInv dag (insert v S) first
      ((store.setFlagTable (dag.hashOf v) ft).setEvent e) where
  stored k e' h' := by
    rw [SledStore.setEvent_event_hash] at h'
    split at h'
    · rename_i hk
      cases h'
      exact ⟨v, Or.inl rfl, (hk.trans hhash).symm, hevent, hk.symm, hframe⟩
    · obtain ⟨w, hw, hrest⟩ := h.stored k e' h'
      exact ⟨w, Or.inr hw, hrest⟩
  present w hw := by
    rw [SledStore.setEvent_event_hash]
    split
    · exact ⟨e, rfl⟩
    · rename_i hne
      rcases hw with rfl | hw
      · exact absurd hhash.symm hne
      · exact h.present w hw
  table w hw := by
    rw [SledStore.setEvent_flagTable, SledStore.setFlagTable_flagTable]
    split
    · rename_i heq
      rw [EventDag.hashOf_injective heq]
      exact ⟨ft, rfl, htable⟩
    · rename_i hne
      rcases hw with rfl | hw
      · exact absurd rfl hne
      · exact h.table w hw
  record f record := by
    have hlamport : e.lamportTimestamp = v.1.lamportTimestamp :=
      congrArg HashEvent.lamportTimestamp hevent
    have hold := h.record f record
    rw [SledStore.setEvent_getFrame, SledStore.setFlagTable_getFrame]
    split
    · rename_i hf
      rw [List.mem_append, List.mem_singleton, hold, hhash, hlamport]
      constructor
      · rintro (⟨w, hw, hrest⟩ | hrecord)
        · exact ⟨w, Or.inr hw, hrest⟩
        · exact ⟨v, Or.inl rfl, (hf.trans hframe).symm, hrecord⟩
      · rintro ⟨w, rfl | hw, hwf, hrecord⟩
        · exact Or.inr hrecord
        · exact Or.inl ⟨w, hw, hwf, hrecord⟩
    · rename_i hf
      rw [hold]
      constructor
      · rintro ⟨w, hw, hrest⟩
        exact ⟨w, Or.inr hw, hrest⟩
      · rintro ⟨w, rfl | hw, hwf, hrecord⟩
        · exact absurd (hwf.symm.trans hframe.symm) hf
        · exact ⟨w, hw, hwf, hrecord⟩
  record_nodup f := by
    have hold := h.record_nodup f
    rw [SledStore.setEvent_getFrame, SledStore.setFlagTable_getFrame]
    split
    · rw [List.nodup_append]
      refine ⟨hold, List.nodup_singleton _, ?_⟩
      rintro record hrecord _ hnew rfl
      -- a record with the hash of `v` would be one of a vertex in `S`
      obtain ⟨w, hw, _, hwrecord⟩ := (h.record f record).mp hrecord
      have hsame := hwrecord.symm.trans (List.mem_singleton.mp hnew)
      have hwv : dag.hashOf w = dag.hashOf v :=
        (congrArg FrameRecord.hash hsame).trans hhash
      exact hv (EventDag.hashOf_injective hwv ▸ hw)
    · exact hold

/-- The invariant reads frames only up to the order of their records. -/
theorem of_perm {store' : SledStore P D T H Sig}
    (h : StoreInv dag S first store) (hevent : store'.event = store.event)
    (htable : store'.flagTable = store.flagTable)
    (hframe : ∀ f, (store'.getFrame f).events.Perm (store.getFrame f).events) :
    StoreInv dag S first store' where
  stored k e := by
    rw [hevent]
    exact h.stored k e
  present v hv := by
    rw [hevent]
    exact h.present v hv
  table v hv := by
    rw [htable]
    exact h.table v hv
  record f record := (hframe f).mem_iff.trans (h.record f record)
  record_nodup f := (hframe f).nodup_iff.mpr (h.record_nodup f)

end StoreInv

end ConsensusDag
