/-
The frame numbers, flag tables and finalised frames that `insert_event` computes
from pruned tables are those of the event graph.
-/
import ConsensusDag.StoreInvariant

namespace ConsensusDag

open ParentGraphs ParentGraph QuorumGraph AssocTables

variable {P D T H PK SK Sig : Type} [LinearOrder P] [LinearOrder H]
  [Inhabited H] {env : Env P D T H PK SK Sig} {peers : List (DAGPeer P PK)}
  {dag : EventDag env peers} {S : Set dag.Vertex} {first : Nat}

/-- A creator table that holds the greatest frame of each creator in a set of
vertices. -/
structure CreatorTable (R : Set dag.Vertex) (t : CreatorFlagTable P) : Prop where
  mem_iff : ∀ c, c ∈ t ↔ ∃ r ∈ R, dag.graph.creator r = c
  lookup_iff : ∀ c f, t.lookup c = some f ↔
    (∃ r ∈ R, dag.graph.creator r = c ∧ dag.graph.frame r = f) ∧
      ∀ r ∈ R, dag.graph.creator r = c → dag.graph.frame r ≤ f

/-- A flag table whose entries from frame `least` on are a set of stored
vertices gives the creator table of that set. -/
theorem StoreInv.derive_spec {store : SledStore P D T H Sig}
    (h : StoreInv dag S first store) {ft : FlagTable H} {least : Nat}
    {R : Set dag.Vertex} (hR : R ⊆ S)
    (hft : ∀ k f, ft.lookup k = some f ∧ least ≤ f ↔
      ∃ r ∈ R, dag.hashOf r = k ∧ dag.graph.frame r = f) :
    ∃ t, store.deriveCreatorFlagTable env ft least = .ok t ∧
      CreatorTable R t := by
  have hpairs : ∀ c f,
      (c, f) ∈ ft.entries.filterMap (store.creatorPair least) ↔
        ∃ r ∈ R, dag.graph.creator r = c ∧ dag.graph.frame r = f := by
    intro c f
    rw [SledStore.mem_creatorPairs]
    constructor
    · rintro ⟨k, e, hlookup, hle, he, rfl⟩
      obtain ⟨r, hr, hk, hf⟩ := (hft k f).mp ⟨hlookup, hle⟩
      obtain ⟨w, _, hw, hevent, _⟩ := h.stored k e he
      have hrw : r = w := EventDag.hashOf_injective (hk.trans hw.symm)
      subst hrw
      exact ⟨r, hr, (congrArg HashEvent.creator hevent).symm, hf⟩
    · rintro ⟨r, hr, rfl, rfl⟩
      obtain ⟨hlookup, hle⟩ := (hft _ _).mpr ⟨r, hr, rfl, rfl⟩
      obtain ⟨e, he, hevent, _⟩ := h.lookup_vertex (hR hr)
      exact ⟨_, e, hlookup, hle, he, congrArg HashEvent.creator hevent⟩
  refine ⟨_, SledStore.deriveCreatorFlagTable_eq ?_, ?_, ?_⟩
  · intro k f hlookup hle
    obtain ⟨r, hr, rfl, _⟩ := (hft k f).mp ⟨hlookup, hle⟩
    exact h.present r (hR hr)
  · intro c
    rw [Table.mem_maxTable_iff]
    constructor
    · rintro ⟨f, hf⟩
      obtain ⟨r, hr, hc, _⟩ := (hpairs c f).mp hf
      exact ⟨r, hr, hc⟩
    · rintro ⟨r, hr, hc⟩
      exact ⟨_, (hpairs c _).mpr ⟨r, hr, hc, rfl⟩⟩
  · intro c f
    rw [Table.lookup_maxTable_iff, hpairs]
    refine and_congr_right fun _ => ⟨?_, ?_⟩
    · exact fun hmax r hr hc => hmax _ ((hpairs c _).mpr ⟨r, hr, hc, rfl⟩)
    · intro hmax f' hf'
      obtain ⟨r, hr, hc, rfl⟩ := (hpairs c f').mp hf'
      exact hmax r hr hc

section Insert

variable {v s o : dag.Vertex} {sft oft : FlagTable H}

/-- The strict merge of the parents' tables lists the roots of one frame that
the new vertex has among its ancestors. -/
theorem lookup_strictMerge_iff (hv : dag.graph.parents v = some (s, o))
    (hs : TableInv dag s first sft) (ho : TableInv dag o first oft) {f : Nat}
    (hf : first ≤ f) (k : H) (g : Nat) :
    (strictMergeFlagTable sft oft f).lookup k = some g ∧ f ≤ g ↔
      ∃ r ∈ {r | dag.graph.Ancestor r v ∧ dag.graph.IsRoot r ∧
        dag.graph.frame r = f}, dag.hashOf r = k ∧ dag.graph.frame r = g := by
  rw [lookup_strictMergeFlagTable]
  constructor
  · rintro ⟨⟨rfl, hlookup | hlookup⟩, _⟩
    · obtain ⟨r, hk, hr, hroot, hframe⟩ := hs.sound k g hlookup
      exact ⟨r, ⟨(ancestor_iff_of_parents hv).mpr (Or.inl hr), hroot, hframe⟩, hk,
        hframe⟩
    · obtain ⟨r, hk, hr, hroot, hframe⟩ := ho.sound k g hlookup
      exact ⟨r, ⟨(ancestor_iff_of_parents hv).mpr (Or.inr hr), hroot, hframe⟩, hk,
        hframe⟩
  · rintro ⟨r, ⟨hanc, hroot, hrf⟩, rfl, rfl⟩
    refine ⟨⟨hrf, ?_⟩, hrf.ge⟩
    rcases (ancestor_iff_of_parents hv).mp hanc with hr | hr
    · exact Or.inl (hs.complete r hr hroot (by omega))
    · exact Or.inr (ho.complete r hr hroot (by omega))

/-- The branch taken by `insert_event` gives the new event the frame of its
vertex, and calls it a root when its vertex is one. -/
theorem rootAndFrame_eq {core : DAGcore P D T H PK SK Sig}
    (h : StoreInv dag S first core.store)
    (hclosed : dag.graph.ParentClosed S)
    (hpeers : core.conf.peers.peers.Perm peers)
    (hv : dag.graph.parents v = some (s, o)) (hsS : s ∈ S) (hoS : o ∈ S)
    (hs : TableInv dag s first sft) (ho : TableInv dag o first oft)
    (hfirst : first ≤ dag.graph.frame s) {se oe : Event P D T H Sig}
    (hse : se.frameNumber = dag.graph.frame s)
    (hoe : oe.frameNumber = dag.graph.frame o) :
    ∃ root, core.rootAndFrame env se oe sft oft =
        .ok (root, dag.graph.frame v) ∧
      (root = true ↔ dag.graph.IsRoot v) := by
  have hroot := isRoot_iff_of_parents hv
  have hframe := frame_of_parents hv
  unfold DAGcore.rootAndFrame
  rw [hse, hoe]
  rcases Nat.lt_trichotomy (dag.graph.frame s) (dag.graph.frame o) with
    hlt | heq | hgt
  · rw [Nat.compare_eq_lt.mpr hlt]
    rw [if_neg hlt.ne, Nat.max_eq_right hlt.le] at hframe
    refine ⟨true, by rw [hframe]; rfl, ?_⟩
    rw [hroot, hframe]
    simp [hlt]
  · rw [Nat.compare_eq_eq.mpr heq]
    rw [if_pos heq] at hframe
    have hanc : {r | dag.graph.Ancestor r v ∧ dag.graph.IsRoot r ∧
        dag.graph.frame r = dag.graph.frame s} ⊆ S := by
      rintro r ⟨hr, _⟩
      rcases (ancestor_iff_of_parents hv).mp hr with hr | hr
      · exact hclosed.mem_of_reaches hr hsS
      · exact hclosed.mem_of_reaches hr hoS
    obtain ⟨t, ht, hmem, -⟩ := h.derive_spec hanc
      (lookup_strictMerge_iff hv hs ho hfirst)
    have hcard : t.entries.length =
        (dag.graph.rootCreators v (dag.graph.frame s)).card := by
      refine Table.length_entries_eq_card t fun c => ?_
      rw [hmem, mem_rootCreators]
      simp only [Set.mem_ofPred_eq, and_assoc]
    have hmajority : core.conf.peers.rootMajority = dag.graph.majority := by
      rw [DAGPeerList.rootMajority, hpeers.length_eq]
      rfl
    simp only [ht, bind, Except.bind, hcard, hmajority]
    split at hframe
    · rename_i hle
      refine ⟨true, by rw [if_pos hle, hframe]; rfl, ?_⟩
      rw [hroot, hframe]
      simp
    · rename_i hnle
      refine ⟨false, by rw [if_neg hnle, hframe]; rfl, ?_⟩
      rw [hroot, hframe]
      simp
  · rw [Nat.compare_eq_gt.mpr hgt]
    rw [if_neg hgt.ne', Nat.max_eq_left hgt.le] at hframe
    refine ⟨false, by rw [hframe]; rfl, ?_⟩
    rw [hroot, hframe]
    simp

/-- The table computed for a new event is one of its vertex. -/
theorem tableInv_visibilis (core : DAGcore P D T H PK SK Sig)
    (hfirst : core.firstNotFinalisedFrame = first)
    (hv : dag.graph.parents v = some (s, o))
    (hs : TableInv dag s first sft) (ho : TableInv dag o first oft) {root : Bool}
    (hroot : root = true ↔ dag.graph.IsRoot v) :
    TableInv dag v first (core.visibilisFlagTable sft oft root (dag.hashOf v)
      (dag.graph.frame v)) := by
  have hmerge : ∀ r, dag.graph.Ancestor r v → dag.graph.IsRoot r →
      first ≤ dag.graph.frame r →
      (openMergeFlagTable sft oft first).lookup (dag.hashOf r) =
        some (dag.graph.frame r) := by
    intro r hr hrroot hle
    refine lookup_openMergeFlagTable_of_le (fun a b => hs.agree ho) ?_ hle
    rcases (ancestor_iff_of_parents hv).mp hr with hr | hr
    · exact Or.inl (hs.complete r hr hrroot hle)
    · exact Or.inr (ho.complete r hr hrroot hle)
  have hsound : ∀ k f, (openMergeFlagTable sft oft first).lookup k = some f →
      ∃ r, dag.hashOf r = k ∧ dag.graph.Reaches r v ∧ dag.graph.IsRoot r ∧
        dag.graph.frame r = f := by
    intro k f hlookup
    rcases lookup_of_lookup_openMergeFlagTable hlookup with hl | hl
    · obtain ⟨r, hk, hr, hrest⟩ := hs.sound k f hl
      exact ⟨r, hk, hr.tail (isParent_self hv), hrest⟩
    · obtain ⟨r, hk, hr, hrest⟩ := ho.sound k f hl
      exact ⟨r, hk, hr.tail (isParent_other hv), hrest⟩
  unfold DAGcore.visibilisFlagTable
  rw [hfirst]
  cases root with
  | true =>
      have hvroot := hroot.mp rfl
      refine ⟨?_, ?_, fun _ => AList.lookup_insert _⟩
      · intro k f hlookup
        by_cases hk : k = dag.hashOf v
        · rw [hk] at hlookup
          simp only [↓reduceIte, AList.lookup_insert, Option.some.injEq] at hlookup
          exact ⟨v, hk.symm, Relation.ReflTransGen.refl, hvroot, hlookup⟩
        · simp only [↓reduceIte, AList.lookup_insert_ne hk] at hlookup
          exact hsound k f hlookup
      · intro r hr hrroot hle
        rcases hr.eq_or_ancestor with rfl | hanc
        · exact AList.lookup_insert _
        · have hne : dag.hashOf r ≠ dag.hashOf v := by
            intro heq
            rw [EventDag.hashOf_injective heq] at hanc
            exact wellFounded_ancestor.irrefl.irrefl v hanc
          simp only [↓reduceIte, AList.lookup_insert_ne hne]
          exact hmerge r hanc hrroot hle
  | false =>
      have hvroot : ¬ dag.graph.IsRoot v := fun h => absurd (hroot.mpr h) (by simp)
      refine ⟨hsound, ?_, fun h => absurd h hvroot⟩
      intro r hr hrroot hle
      rcases hr.eq_or_ancestor with rfl | hanc
      · exact absurd hrroot hvroot
      · exact hmerge r hanc hrroot hle

/-- The roots after frame `first` that a vertex sees, itself among them. -/
def rootsAfter (v : dag.Vertex) (first : Nat) : Set dag.Vertex :=
  {r | dag.graph.Reaches r v ∧ dag.graph.IsRoot r ∧ first < dag.graph.frame r}

omit [LinearOrder H] in
/-- Every peer has an entry exactly when the bound is beyond `first`. -/
theorem CreatorTable.card_eq_iff {t : CreatorFlagTable P}
    (h : CreatorTable (rootsAfter v first) t) :
    dag.graph.peers.card = t.entries.length ↔ first < dag.graph.bound v := by
  have hkeys : t.entries.length = t.keys.toFinset.card :=
    Table.length_entries_eq_card t fun c => by
      rw [List.mem_toFinset, ← AList.mem_keys]
  have hsubset : t.keys.toFinset ⊆ dag.graph.peers := by
    intro c hc
    rw [List.mem_toFinset, ← AList.mem_keys, h.mem_iff] at hc
    obtain ⟨r, _, rfl⟩ := hc
    exact dag.graph.creator_mem r
  rw [hkeys, lt_bound_iff]
  constructor
  · intro hcard c hc
    rw [← Finset.eq_of_subset_of_card_le hsubset hcard.le, List.mem_toFinset,
      ← AList.mem_keys, h.mem_iff] at hc
    obtain ⟨r, ⟨hr, hroot, hlt⟩, hcreator⟩ := hc
    exact ⟨r, hr, hroot, hcreator, hlt⟩
  · intro hbound
    refine congrArg Finset.card (Finset.Subset.antisymm ?_ hsubset)
    intro c hc
    obtain ⟨r, hr, hroot, hcreator, hlt⟩ := hbound c hc
    rw [List.mem_toFinset, ← AList.mem_keys, h.mem_iff]
    exact ⟨r, ⟨hr, hroot, hlt⟩, hcreator⟩

omit [LinearOrder H] in
/-- With an entry for every peer, the least frame of the table is the bound. -/
theorem CreatorTable.minFrame_eq {t : CreatorFlagTable P}
    (h : CreatorTable (rootsAfter v first) t) (hlt : first < dag.graph.bound v) :
    minFrame t = dag.graph.bound v := by
  have hne : t.entries ≠ [] := by
    intro hnil
    have hcard := h.card_eq_iff.mpr hlt
    rw [hnil, List.length_nil] at hcard
    exact (Finset.card_pos.mpr ⟨_, dag.graph.creator_mem v⟩).ne' hcard
  obtain ⟨⟨c, hc⟩, hleast⟩ := minFrame_spec hne
  apply Nat.le_antisymm
  · -- below the least frame every peer has a root that `v` sees
    by_contra hgt
    have hbeyond : dag.graph.bound v < dag.graph.bound v := by
      refine lt_bound_iff.mpr fun c' hc' => ?_
      obtain ⟨r, hr, hroot, hcreator, hframe⟩ := lt_bound_iff.mp hlt c' hc'
      have hin : c' ∈ t := (h.mem_iff c').mpr ⟨r, ⟨hr, hroot, hframe⟩, hcreator⟩
      obtain ⟨f, hf⟩ := Option.isSome_iff_exists.mp (AList.lookup_isSome.mpr hin)
      obtain ⟨⟨r', ⟨hr', hroot', _⟩, hcreator', rfl⟩, _⟩ := (h.lookup_iff c' f).mp hf
      have hle := hleast c' _ hf
      exact ⟨r', hr', hroot', hcreator', by omega⟩
    exact lt_irrefl _ hbeyond
  · -- the creator of the least frame has no root that is later
    obtain ⟨⟨r, _, rfl, _⟩, hmax⟩ := (h.lookup_iff c _).mp hc
    by_contra hgt
    obtain ⟨r', hr', hroot', hcreator', hlt'⟩ :=
      lt_bound_iff.mp (Nat.lt_of_not_ge hgt) _ (dag.graph.creator_mem r)
    obtain ⟨r₁, hr₁, hroot₁, hcreator₁, hlt₁⟩ :=
      lt_bound_iff.mp hlt _ (dag.graph.creator_mem r)
    have hfirst := hmax r₁ ⟨hr₁, hroot₁, hlt₁⟩ hcreator₁
    have hle := hmax r' ⟨hr', hroot', by omega⟩ hcreator'
    omega

/-- The frames to finalise after an insertion end where the bound of the new
vertex says. -/
theorem framesToFinalise_eq (core : DAGcore P D T H PK SK Sig)
    (h : StoreInv dag S first core.store) (hclosed : dag.graph.ParentClosed S)
    (hpeers : core.conf.peers.peers.Perm peers) (hvS : v ∈ S) {ft : FlagTable H}
    (hft : TableInv dag v first ft) :
    core.framesToFinalise env ft first =
      .ok (List.range' first (dag.graph.bound v - first)) := by
  have hroots : ∀ k f, ft.lookup k = some f ∧ first + 1 ≤ f ↔
      ∃ r ∈ rootsAfter v first, dag.hashOf r = k ∧ dag.graph.frame r = f := by
    intro k f
    constructor
    · rintro ⟨hlookup, hle⟩
      obtain ⟨r, hk, hr, hroot, rfl⟩ := hft.sound k f hlookup
      exact ⟨r, ⟨hr, hroot, hle⟩, hk, rfl⟩
    · rintro ⟨r, ⟨hr, hroot, hlt⟩, rfl, rfl⟩
      exact ⟨hft.complete r hr hroot hlt.le, hlt⟩
  have hsub : rootsAfter v first ⊆ S :=
    fun r hr => hclosed.mem_of_reaches hr.1 hvS
  obtain ⟨t, ht, htable⟩ := h.derive_spec hsub hroots
  have hlen : core.conf.peers.len = dag.graph.peers.card := by
    rw [EventDag.card_graph_peers, DAGPeerList.len, hpeers.length_eq]
  unfold DAGcore.framesToFinalise
  simp only [ht, bind, Except.bind, hlen]
  by_cases hlt : first < dag.graph.bound v
  · rw [if_pos (htable.card_eq_iff.mpr hlt), htable.minFrame_eq hlt]
    rfl
  · rw [if_neg (hlt ∘ htable.card_eq_iff.mp),
      Nat.sub_eq_zero_of_le (Nat.le_of_not_lt hlt)]
    rfl

end Insert

end ConsensusDag
