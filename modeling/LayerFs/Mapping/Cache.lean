import LayerFs.Mapping.Read

/-!
# Navigation through the page cache

* `Fits` — the cache on its own: a sequence of waves is served as long as no wave finds some of
  its pages retained while the others do not fit beside the retained ones, for then the cache is
  emptied and the retained pages of the wave are gone.
-/

namespace LayerFs

open List hiding Disjoint

/-! ## A cache that empties itself -/

section Cache

variable {κ : Type} [DecidableEq κ]

/-- What is retained after a wave: everything while it fits, else only what the wave missed. -/
def heldAfter (limit : ℕ) (held wave : Finset κ) : Finset κ :=
  if wave ⊆ held then held
  else if (held ∪ wave).card ≤ limit then held ∪ wave else wave \ held

/-- A wave finds all of its pages: they are retained, or none is, or all fit together. -/
def Served (limit : ℕ) (held wave : Finset κ) : Prop :=
  wave ⊆ held ∨ Disjoint wave held ∨ (held ∪ wave).card ≤ limit

def Fits (limit : ℕ) : Finset κ → List (Finset κ) → Prop
  | _, [] => True
  | held, wave :: rest => Served limit held wave ∧ Fits limit (heldAfter limit held wave) rest

instance (limit : ℕ) (held wave : Finset κ) : Decidable (Served limit held wave) :=
  inferInstanceAs (Decidable (_ ∨ _ ∨ _))

instance decidableFits (limit : ℕ) : ∀ (held : Finset κ) waves, Decidable (Fits limit held waves)
  | _, [] => inferInstanceAs (Decidable True)
  | held, wave :: rest =>
    @instDecidableAnd _ _ _ (decidableFits limit (heldAfter limit held wave) rest)

def heldAfterAll (limit : ℕ) (held : Finset κ) (waves : List (Finset κ)) : Finset κ :=
  waves.foldl (heldAfter limit) held

theorem fits_append {limit : ℕ} {a b : List (Finset κ)} : ∀ {held : Finset κ},
    Fits limit held (a ++ b) ↔ Fits limit held a ∧ Fits limit (heldAfterAll limit held a) b := by
  induction a with
  | nil =>
    intro held
    simp [Fits, heldAfterAll]
  | cons wave rest ih =>
    intro held
    rw [cons_append, Fits, Fits, ih, and_assoc]
    rfl

end Cache

variable {Id : Type} [DecidableEq Id]

/-! ## Navigation -/

def waveKeys (nodes : List (FrontierNode Id)) : Finset (Id × Bool) :=
  (nodes.map FrontierNode.key).toFinset

/-- The children of a branch at the given file offset whose bytes meet the range. -/
def childNodes (range : ByteRange) (origin level : ℕ) :
    ℕ → List (ChildDescriptor Id) → List (FrontierNode Id)
  | _, [] => []
  | previous, child :: rest =>
    let stop := origin + child.cumulativeLogicalEnd
    if range.start < stop ∧ previous < range.stop then
      ⟨child.childObjectId, false, level, previous, none⟩ ::
        childNodes range origin level stop rest
    else childNodes range origin level stop rest

def nodesBelow (reader : Id → Option (MappingObject Id)) (range : ByteRange)
    (node : FrontierNode Id) : List (FrontierNode Id) :=
  match reader node.id with
  | some (.page (.branch _ _ _ children)) =>
    childNodes range node.origin (node.level - 1) node.origin children
  | _ => []

def wavesBelow (reader : Id → Option (MappingObject Id)) (range : ByteRange) :
    ℕ → List (FrontierNode Id) → List (Finset (Id × Bool))
  | 0, level => (navigationWaves level).map waveKeys
  | depth + 1, level => (navigationWaves level).map waveKeys ++
      wavesBelow reader range depth (level.flatMap (nodesBelow reader range))

/-- **The navigation of a range**: the pages of every level whose bytes meet it, in waves. -/
def navigation (reader : Id → Option (MappingObject Id)) (state : FileState Id)
    (range : ByteRange) : List (Finset (Id × Bool)) :=
  if range.start = range.stop then []
  else wavesBelow reader range state.treeLevel [rootFrontier state]

/-! ## Deciding a computation -/

/-- A computation succeeds with `P` when a condition holds, and misses an object otherwise. -/
def ServedIf {α : Type} (condition : Prop) (P : α → Prop) (x : ContentResult α) : Prop :=
  (condition → ∃ a, x = .ok a ∧ P a) ∧ (¬ condition → x = .error .missingObject)

namespace ServedIf

variable {α β : Type} {c d : Prop} {P : α → Prop} {Q : β → Prop}

variable {x : ContentResult α}
theorem of_ok {a : α} (hx : x = .ok a) (ha : P a) : ServedIf True P x :=
  ⟨fun _ => ⟨a, hx, ha⟩, fun h => absurd trivial h⟩

theorem bind {f : α → ContentResult β} (hx : ServedIf c P x) (hf : ∀ a, P a → ServedIf d Q (f a)) :
    ServedIf (c ∧ d) Q (x >>= f) := by
  refine ⟨?_, fun hnot => ?_⟩
  · rintro ⟨hc, hd⟩
    obtain ⟨a, rfl, ha⟩ := hx.1 hc
    exact (hf a ha).1 hd
  · by_cases hc : c
    · obtain ⟨a, rfl, ha⟩ := hx.1 hc
      exact (hf a ha).2 fun hd => hnot ⟨hc, hd⟩
    · rw [hx.2 hc]
      rfl

theorem congr {P' : α → Prop} (h : ServedIf c P x) (hcd : d ↔ c) (hP : ∀ a, P a → P' a) :
    ServedIf d P' x := by
  refine ⟨fun hd => ?_, fun hd => h.2 (mt hcd.mpr hd)⟩
  obtain ⟨a, hx, ha⟩ := h.1 (hcd.mp hd)
  exact ⟨a, hx, hP a ha⟩

theorem ok_iff (h : ServedIf c P x) : (∃ a, x = .ok a ∧ P a) ↔ c := by
  refine ⟨?_, h.1⟩
  rintro ⟨a, hx, -⟩
  by_contra hc
  rw [h.2 hc] at hx
  cases hx

end ServedIf

/-! ## Pages through the cache -/

def PageCache.Faithful (reader : Id → Option (MappingObject Id)) (cache : PageCache Id) : Prop :=
  ∀ key page, cache.get key = some page → reader key.1 = some page

variable {object : Id → MappingObject Id}

theorem PageCache.Faithful.retain {reader : Id → Option (MappingObject Id)} {cache : PageCache Id}
    (hfaithful : cache.Faithful reader) {missing : List (Id × Bool)}
    (hmem : ∀ key ∈ missing, reader key.1 = some (object key.1)) :
    ((cache.makeRoomFor missing.length).insertAll
      (missing.map fun key => (key, object key.1))).Faithful reader := by
  intro key page hpage
  rw [PageCache.get, PageCache.insertAll,
    AssocMap.get?_insertAll (f := fun key : Id × Bool => object key.1)] at hpage
  split_ifs at hpage with hmissing
  · cases hpage
    exact hmem key hmissing
  · rw [PageCache.makeRoomFor] at hpage
    split_ifs at hpage
    · cases hpage
    · exact hfaithful key page hpage

theorem mem_foldl_pushNew {α : Type} [DecidableEq α] {l : List α} {a : α} :
    ∀ {acc : List α}, a ∈ l.foldl pushNew acc ↔ a ∈ acc ∨ a ∈ l := by
  induction l with
  | nil => simp
  | cons x rest ih =>
    intro acc
    rw [foldl_cons, ih, pushNew]
    split_ifs with hx
    · by_cases ha : a = x <;> simp [ha, hx]
    · simp [or_assoc]

theorem nodup_pushNew {α : Type} [DecidableEq α] {l : List α} {a : α} (h : l.Nodup) :
    (pushNew l a).Nodup := by
  rw [pushNew]
  split_ifs with ha
  · exact h
  · rw [nodup_append]
    refine ⟨h, nodup_singleton a, ?_⟩
    rintro x hx y hy rfl
    exact ha (mem_singleton.mp hy ▸ hx)

theorem nodup_foldl_pushNew {α : Type} [DecidableEq α] {l : List α} :
    ∀ {acc : List α}, acc.Nodup → (l.foldl pushNew acc).Nodup := by
  induction l with
  | nil => exact fun h => h
  | cons x rest ih => exact fun h => ih (nodup_pushNew h)

namespace Wave

variable {reader : Id → Option (MappingObject Id)} {wave : Wave Id} {nodes : List (FrontierNode Id)}

theorem toFinset_wanted : (wanted nodes).toFinset = waveKeys nodes := by
  ext key
  simp [wanted, waveKeys, mem_foldl_pushNew]

def missing (wave : Wave Id) (nodes : List (FrontierNode Id)) : List (Id × Bool) :=
  (wanted nodes).filter fun key => (wave.cache.get key).isNone

theorem toFinset_missing :
    (wave.missing nodes).toFinset = waveKeys nodes \ wave.cache.pages.keySet := by
  rw [missing, toFinset_filter, toFinset_wanted]
  ext key
  simp [AssocMap.mem_keySet, PageCache.get]

theorem missing_nodup : (wave.missing nodes).Nodup :=
  (nodup_foldl_pushNew nodup_nil).filter _

theorem length_missing :
    (wave.missing nodes).length = (waveKeys nodes \ wave.cache.pages.keySet).card := by
  rw [← toFinset_missing, toFinset_card_of_nodup missing_nodup]

theorem missing_eq_nil_iff :
    wave.missing nodes = [] ↔ waveKeys nodes ⊆ wave.cache.pages.keySet := by
  rw [← Finset.sdiff_eq_empty_iff_subset, ← toFinset_missing, toFinset_eq_empty_iff]

omit [DecidableEq Id] in
theorem readCanonicalBatch_eq {ids : List Id} (h : ∀ id ∈ ids, reader id = some (object id)) :
    readCanonicalBatch reader ids = .ok (ids.map object) := by
  induction ids with
  | nil => rfl
  | cons id rest ih =>
    rw [readCanonicalBatch, mapM_cons, h id List.mem_cons_self]
    have hrest := ih fun x hx => h x (mem_cons_of_mem _ hx)
    rw [readCanonicalBatch] at hrest
    exact bind_eq_ok.mpr ⟨_, rfl, bind_eq_ok.mpr ⟨_, hrest, rfl⟩⟩

/-- What a navigation wave leaves as it was: everything but the cache and the page counters. -/
structure SameDemands (wave wave' : Wave Id) : Prop where
  sink : wave'.sink = wave.sink
  demands : wave'.demands = wave.demands
  distinct : wave'.distinct = wave.distinct
  payloadBytes : wave'.counters.payloadBytesRead = wave.counters.payloadBytesRead

omit [DecidableEq Id] in
theorem SameDemands.refl (wave : Wave Id) : SameDemands wave wave := ⟨rfl, rfl, rfl, rfl⟩

theorem acquire_eq_ok (hfaithful : wave.cache.Faithful reader)
    (hstored : ∀ node ∈ nodes, reader node.id = some (object node.id)) :
    ∃ wave', wave.acquire reader (wave.missing nodes) = .ok wave' ∧ SameDemands wave wave' ∧
      wave'.cache.limit = wave.cache.limit ∧ wave'.cache.Faithful reader ∧
      wave'.cache.pages.keySet = (waveKeys nodes \ wave.cache.pages.keySet) ∪
        (if (wave.cache.pages.keySet ∪ waveKeys nodes).card ≤ wave.cache.limit
          then wave.cache.pages.keySet else ∅) := by
  have hmem : ∀ key ∈ wave.missing nodes, reader key.1 = some (object key.1) := by
    intro key hkey
    have hkey' := mem_toFinset.mp (@toFinset_wanted Id _ nodes ▸
      mem_toFinset.mpr (mem_filter.mp hkey).1 : key ∈ waveKeys nodes)
    obtain ⟨node, hnode, rfl⟩ := mem_map.mp hkey'
    exact hstored node hnode
  have hread : readCanonicalBatch reader ((wave.missing nodes).map Prod.fst) =
      .ok ((wave.missing nodes).map fun key => object key.1) := by
    rw [readCanonicalBatch_eq, List.map_map]
    · rfl
    · intro id hid
      obtain ⟨key, hkey, rfl⟩ := mem_map.mp hid
      exact hmem key hkey
  have hsize : wave.cache.pages.size + (wave.missing nodes).length =
      (wave.cache.pages.keySet ∪ waveKeys nodes).card := by
    rw [← AssocMap.card_keySet, length_missing, ← Finset.union_sdiff_self_eq_union,
      Finset.card_union_of_disjoint Finset.disjoint_sdiff]
  have hzip : (wave.missing nodes).zip ((wave.missing nodes).map fun key => object key.1) =
      (wave.missing nodes).map fun key => (key, object key.1) := by
    simpa using @zip_map' _ _ _ id (fun key : Id × Bool => object key.1) (wave.missing nodes)
  have hacquire : wave.acquire reader (wave.missing nodes) = .ok _ :=
    bind_eq_ok.mpr ⟨_, hread, check_bind_eq_ok.mpr ⟨by simp, rfl⟩⟩
  rw [hzip] at hacquire
  refine ⟨_, hacquire, ⟨rfl, rfl, rfl, rfl⟩, ?_, hfaithful.retain hmem, ?_⟩
  · simp only [PageCache.insertAll, PageCache.makeRoomFor]
    split_ifs <;> rfl
  · simp only [PageCache.insertAll, AssocMap.keySet_insertAll, List.map_map, PageCache.makeRoomFor,
      hsize]
    rw [show (Prod.fst ∘ fun key : Id × Bool => (key, object key.1)) = id from rfl, map_id,
      toFinset_missing, Finset.union_comm]
    split_ifs with h₁ h₂ h₂
    · omega
    · rfl
    · rfl
    · omega

theorem mapM_get_of_held (hfaithful : wave.cache.Faithful reader)
    (hstored : ∀ node ∈ nodes, reader node.id = some (object node.id))
    (hheld : waveKeys nodes ⊆ wave.cache.pages.keySet) :
    (nodes.mapM fun node => orError (wave.cache.get node.key) .missingObject) =
      .ok (nodes.map fun node => object node.id) := by
  have hall : ∀ node ∈ nodes, wave.cache.get node.key = some (object node.id) := by
    intro node hnode
    have hkey : node.key ∈ waveKeys nodes := mem_toFinset.mpr (mem_map_of_mem hnode)
    obtain ⟨page, hpage⟩ := Option.isSome_iff_exists.mp (AssocMap.mem_keySet.mp (hheld hkey))
    have heq := (hfaithful _ _ hpage).symm.trans (hstored node hnode)
    rw [PageCache.get, hpage, heq]
  clear hheld hstored
  induction nodes with
  | nil => rfl
  | cons node rest ih =>
    rw [mapM_cons, hall node List.mem_cons_self]
    exact bind_eq_ok.mpr ⟨_, rfl, bind_eq_ok.mpr
      ⟨_, ih fun x hx => hall x (mem_cons_of_mem _ hx), rfl⟩⟩

theorem mapM_get_of_lost {node : FrontierNode Id} (hnode : node ∈ nodes)
    (hlost : wave.cache.get node.key = none) :
    (nodes.mapM fun node => orError (wave.cache.get node.key) .missingObject) =
      .error .missingObject := by
  induction nodes with
  | nil => cases hnode
  | cons first rest ih =>
    rw [mapM_cons]
    rcases hfirst : wave.cache.get first.key with _ | page
    · rfl
    · rcases mem_cons.mp hnode with rfl | hrest
      · rw [hfirst] at hlost
        cases hlost
      · rw [ih hrest]
        rfl

/-- **One navigation wave**: all its pages in order when the wave is served, a missing object
otherwise. Demands are left as they are. -/
theorem pages_servedIf (hfaithful : wave.cache.Faithful reader)
    (hstored : ∀ node ∈ nodes, reader node.id = some (object node.id)) :
    ServedIf (Served wave.cache.limit wave.cache.pages.keySet (waveKeys nodes))
      (fun out : List (MappingObject Id) × Wave Id =>
        out.1 = nodes.map (fun node => object node.id) ∧ SameDemands wave out.2 ∧
          out.2.cache.limit = wave.cache.limit ∧ out.2.cache.Faithful reader ∧
          out.2.cache.pages.keySet =
            heldAfter wave.cache.limit wave.cache.pages.keySet (waveKeys nodes))
      (wave.pages reader nodes) := by
  by_cases hsub : waveKeys nodes ⊆ wave.cache.pages.keySet
  · -- everything is retained
    have hserved : Served wave.cache.limit wave.cache.pages.keySet (waveKeys nodes) := .inl hsub
    refine ⟨fun _ => ⟨(_, wave), ?_, rfl, .refl wave, rfl, hfaithful, ?_⟩,
      fun h => absurd hserved h⟩
    · have hnil := missing_eq_nil_iff.mpr hsub
      rw [missing] at hnil
      rw [pages, hnil]
      exact bind_eq_ok.mpr ⟨wave, rfl, bind_eq_ok.mpr
        ⟨_, mapM_get_of_held hfaithful hstored hsub, rfl⟩⟩
    · rw [heldAfter, if_pos hsub]
  · have hne : (wave.missing nodes).isEmpty = false := by
      rw [isEmpty_eq_false_iff]
      exact mt missing_eq_nil_iff.mp hsub
    obtain ⟨wave', hacquire, hsame, hlimit, hfaithful', hkeys⟩ := acquire_eq_ok hfaithful hstored
    have hpages : wave.pages reader nodes = (do
        let pages ← nodes.mapM fun node => orError (wave'.cache.get node.key) .missingObject
        return (pages, wave')) := by
      rw [missing] at hacquire hne
      rw [pages, hne]
      simp only [Bool.false_eq_true, if_false, hacquire]
      rfl
    rw [hpages]
    by_cases hserved : Served wave.cache.limit wave.cache.pages.keySet (waveKeys nodes)
    · -- nothing the wave needs was dropped
      have hall : waveKeys nodes ⊆ wave'.cache.pages.keySet ∧ wave'.cache.pages.keySet =
          heldAfter wave.cache.limit wave.cache.pages.keySet (waveKeys nodes) := by
        rw [hkeys, heldAfter, if_neg hsub]
        rcases hserved with h | h | h
        · exact absurd h hsub
        · rw [h.sdiff_eq_left]
          split_ifs
          · exact ⟨Finset.subset_union_left, Finset.union_comm _ _⟩
          · exact ⟨Finset.subset_union_left, Finset.union_empty _⟩
        · rw [if_pos h, if_pos h, Finset.sdiff_union_self_eq_union, Finset.union_comm]
          exact ⟨Finset.subset_union_right, rfl⟩
      refine ⟨fun _ => ⟨_, bind_eq_ok.mpr ⟨_, ?_, rfl⟩, rfl, hsame, hlimit, hfaithful', hall.2⟩,
        fun h => absurd hserved h⟩
      exact mapM_get_of_held hfaithful' hstored hall.1
    · -- the cache was emptied under a retained page of the wave
      refine ⟨fun h => absurd h hserved, fun _ => ?_⟩
      rw [Served, not_or, not_or, Finset.not_disjoint_iff] at hserved
      obtain ⟨-, ⟨key, hkey, hheld⟩, hover⟩ := hserved
      rw [if_neg hover, Finset.union_empty] at hkeys
      have hlost : wave'.cache.get key = none := by
        rw [PageCache.get, AssocMap.get?_eq_none_iff, hkeys, Finset.mem_sdiff]
        exact fun h => h.2 hheld
      obtain ⟨node, hnode, rfl⟩ := mem_map.mp (mem_toFinset.mp hkey)
      rw [mapM_get_of_lost hnode hlost]
      rfl

end Wave

end LayerFs
