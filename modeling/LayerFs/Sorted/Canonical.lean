import LayerFs.Sorted.Codec

/-!
# One encoding for each page (`filesystem/sorted/format.rs`, `object/inode_leaf.rs`)

Under the object envelope each format writes a page in one way. Whether the two directions are
inverse is whether the encoder and the decoder make the same checks, and they do not all.

* `pageCodecs_exact_iff` — **when the formats are canonical**, these together with the envelope and
  the inode leaf.
-/

namespace LayerFs.SortedCodec

open List

open Wire Codec InodeCodec

variable {canonical : Bytes} {leaf : InodeLeaf} (page : PageView PathName ℕ) (level : ℕ)

/-! ## What a page says -/

section Said

variable {K V : Type}

theorem WireEntry.key_said (row : WireEntry K V) : (row.said level).key = row.key := by
  rw [WireEntry.said]
  split_ifs <;> rfl

theorem PageView.keys_said (page : PageView K V) (width : K → ℕ) (size : ℕ) :
    (page.said width size).entries.map WireEntry.key = page.rows.map WireEntry.key := by
  rw [PageView.said, map_map]
  exact map_congr_left fun row _ => row.key_said page.level

theorem PageView.length_said (page : PageView K V) (width : K → ℕ) (size : ℕ) :
    (page.said width size).entries.length = page.rows.length :=
  length_map _

theorem PageView.totals_said (page : PageView K V) (width : K → ℕ) (size : ℕ) :
    (page.said width size).view.totals width = page.totals width := by
  by_cases hlevel : page.level = 0
  · have hview : (page.said width size).view.level = 0 := hlevel
    have hwidths : ((page.said width size).view.rows.map fun row => width row.key) =
        page.rows.map fun row => width row.key := by
      have h := congrArg (List.map width) (page.keys_said width size)
      rwa [map_map, map_map] at h
    rw [PageView.totals_leaf hview, PageView.totals_leaf hlevel, hwidths]
    exact congrArg (·, _) (page.length_said width size)
  · have hview : (page.said width size).view.level ≠ 0 := hlevel
    rw [PageView.totals_branch hview]
    rfl

theorem WireEntry.said_leaf {level : ℕ} (h : level = 0) (row : WireEntry K V) :
    row.said level = ⟨row.key, none, row.value⟩ := by
  rw [WireEntry.said, if_pos h]

theorem WireEntry.said_branch {level : ℕ} (h : level ≠ 0) (row : WireEntry K V) :
    row.said level = ⟨row.key, row.child, none⟩ := by
  rw [WireEntry.said, if_neg h]

theorem WireEntry.branchEntry_said {level : ℕ} (h : level ≠ 0) {row : WireEntry K V}
    (hfilled : Filled level row) : BranchEntry (row.said level) := by
  rw [Filled, if_neg h] at hfilled
  rw [WireEntry.said_branch h]
  exact ⟨rfl, hfilled⟩

end Said

/-! ## Directory pages -/

theorem directoryRowFrame_said (level : ℕ) (row : WireEntry PathName ℕ) :
    directoryRowFrame level (row.said level) = directoryRowFrame level row := by
  rw [WireEntry.said]
  split_ifs with h
  · rw [directoryRowFrame, directoryRowFrame, if_pos h, if_pos h]
  · rw [directoryRowFrame, directoryRowFrame, if_neg h, if_neg h]

theorem directoryObject_said (size : ℕ) :
    directoryObject (page.said directoryLeafWidth size).view = directoryObject page := by
  have hrows : (page.said directoryLeafWidth size).view.rows.map (directoryRowFrame page.level) =
      page.rows.map (directoryRowFrame page.level) := by
    refine map_map.trans (map_congr_left fun row _ => ?_)
    exact directoryRowFrame_said page.level row
  have hheader : directoryHeader (page.said directoryLeafWidth size).view =
      directoryHeader page := by
    rw [directoryHeader, PageView.totals_said]
    exact congrArg (headerOf _ _ _ · _ _) (page.length_said directoryLeafWidth size)
  rw [directoryObject, hheader]
  exact congrArg (fun rows : List Bytes => pageObject (directoryHeader page) rows.flatten) hrows

/-- The numbers of a page are numbers of the widths its fields have. -/
structure DirectoryTyped (page : PageView PathName ℕ) : Prop where
  count_lt : page.count < 256 ^ 8
  bytes_lt : page.bytes < 256 ^ 8
  value_lt : ∀ row ∈ page.rows, ∀ serial ∈ row.value, serial < 256 ^ 8

/-- A directory page the decoder takes, of those the encoder takes. -/
def DirectoryReadBack (page : PageView PathName ℕ) : Prop :=
  (page.level = 0 → ∀ row ∈ page.rows, row.value ≠ some 0) ∧
    (page.level ≠ 0 → 2 ≤ page.rows.length)

theorem isBytes_nameFrame (name : PathName) : IsBytes (nameFrame name) :=
  (isBytes_be _ _).append (isBytes_name name)

theorem isBytes_directoryRowFrame (row : WireEntry PathName ℕ) :
    IsBytes (directoryRowFrame level row) := by
  refine (isBytes_nameFrame _).append ?_
  split_ifs
  · cases row.value with
    | none => exact forall_mem_nil _
    | some serial => exact isBytes_be _ _
  · cases row.child with
    | none => exact forall_mem_nil _
    | some child => exact child.isBytes

theorem isBytes_pageObject {header : PageHeader} (hmagic : IsBytes header.magic) {rows : Bytes}
    (hrows : IsBytes rows) : IsBytes (pageObject header rows) :=
  isBytes_envelope ((isBytes_pageHeader hmagic).append hrows)

theorem isBytes_directoryMagic : IsBytes directoryMagic := by decide

theorem isBytes_directoryObject : IsBytes (directoryObject page) :=
  isBytes_pageObject isBytes_directoryMagic (isBytes_rows (isBytes_directoryRowFrame page.level) _)

/-- **When a directory page that is written is read back**: as what it says. -/
theorem decode_encodeDirectory_iff {page : PageView PathName ℕ} (htyped : DirectoryTyped page)
    {canonical : Bytes} (h : encodeDirectory page = .ok canonical) :
    decodeDirectory canonical = .ok (page.said directoryLeafWidth canonical.length) ↔
      DirectoryReadBack page := by
  obtain ⟨hpage, rfl⟩ := encodeDirectory_eq_ok.mp h
  rw [decodeDirectory_eq_ok (isBytes_directoryObject page), directoryObject_said,
    and_iff_left rfl]
  constructor
  · intro hread
    refine ⟨fun hlevel row hrow hzero => ?_, fun hlevel => ?_⟩
    · obtain ⟨-, serial, hserial, hne, -⟩ :=
        (hread.leaf hlevel).1 _ (mem_map_of_mem hrow)
      rw [WireEntry.said_leaf hlevel, hzero] at hserial
      cases hserial
      exact hne rfl
    · rw [← PageView.length_said]
      exact (hread.branch hlevel).2.1
  · rintro ⟨hserials, htwo⟩
    refine ⟨hpage.level_le, by rw [PageView.keys_said]; exact hpage.ascending,
      fun hlevel => ⟨fun entry hentry => ?_, ?_, ?_⟩,
      fun hlevel => ⟨fun entry hentry => ?_, ?_, ?_⟩, ?_, ?_⟩
    · obtain ⟨row, hrow, rfl⟩ := mem_map.mp hentry
      have hfilled := hpage.filled row hrow
      have hlevel' : page.level = 0 := hlevel
      rw [Filled, if_pos hlevel'] at hfilled
      obtain ⟨serial, hserial⟩ := Option.ne_none_iff_exists'.mp hfilled
      rw [WireEntry.said_leaf hlevel']
      exact ⟨rfl, serial, hserial, fun hzero => hserials hlevel' row hrow (hzero ▸ hserial),
        htyped.value_lt row hrow serial hserial⟩
    · rw [PageView.length_said]
      exact congrArg Prod.fst (PageView.totals_leaf hlevel)
    · have hkeys := congrArg (List.map directoryLeafWidth)
        (page.keys_said directoryLeafWidth (directoryObject page).length)
      rw [map_map, map_map] at hkeys
      exact (congrArg Prod.snd (PageView.totals_leaf hlevel)).trans (congrArg List.sum hkeys.symm)
    · obtain ⟨row, hrow, rfl⟩ := mem_map.mp hentry
      exact WireEntry.branchEntry_said hlevel (hpage.filled row hrow)
    · rw [PageView.length_said]
      exact htwo hlevel
    · have htotals : page.totals directoryLeafWidth = _ := PageView.totals_branch hlevel
      exact ⟨(congrArg Prod.fst htotals).trans_lt htyped.count_lt,
        (congrArg Prod.snd htotals).trans_lt htyped.bytes_lt⟩
    · rw [directoryObject_said]
      rfl
    · rw [directoryObject_said]
      exact hpage.fits

/-- **When a directory page that is read is written again**: a branch is accepted whatever number
of entries it records, and written when that is no fewer than its rows. -/
theorem encode_decodeDirectory_iff (hbytes : IsBytes canonical) {page : WirePage PathName ℕ}
    (h : decodeDirectory canonical = .ok page) :
    encodeDirectory page.view = .ok canonical ↔
      (page.level ≠ 0 → page.entries.length ≤ page.count) := by
  obtain ⟨hpage, rfl⟩ := (decodeDirectory_eq_ok hbytes).mp h
  rw [encodeDirectory_eq_ok, and_iff_left rfl]
  refine ⟨fun hwritten => hwritten.summary, fun hsummary => ?_⟩
  have hrows := length_rows_le hpage.filled hpage.fits
  have hroom : maximumPageBytes - emptyPageBytes = 8148 := by decide
  refine ⟨hpage.level_le, ?_, hpage.ascending, hpage.filled, hsummary, hpage.fits⟩
  rw [hroom] at hrows
  rw [directoryMaxItems, maximumDirectoryLeafRows, defaultPageItems]
  split_ifs at hrows ⊢ <;> omega

/-! ## Inode pages -/

theorem inodeRowFrame_said (level : ℕ) (row : InodeEntry) :
    inodeRowFrame level (row.said level) = inodeRowFrame level row := by
  rw [WireEntry.said]
  split_ifs with h
  · rw [inodeRowFrame, inodeRowFrame, if_pos h, if_pos h]
  · rw [inodeRowFrame, inodeRowFrame, if_neg h, if_neg h]

def inodeLeafWidth (_ : ℕ) : ℕ := leafRowBytes

theorem inodeObject_said (page : PageView ℕ (InodeValue ObjectId)) (size : ℕ) :
    inodeObject (page.said inodeLeafWidth size).view = inodeObject page := by
  have hrows : (page.said inodeLeafWidth size).view.rows.map (inodeRowFrame page.level) =
      page.rows.map (inodeRowFrame page.level) := by
    refine map_map.trans (map_congr_left fun row _ => ?_)
    exact inodeRowFrame_said page.level row
  have hheader : inodeHeader (page.said inodeLeafWidth size).view = inodeHeader page := by
    have hlength := page.length_said inodeLeafWidth size
    by_cases hlevel : page.level = 0
    · have hview : (page.said inodeLeafWidth size).view.level = 0 := hlevel
      rw [inodeHeader, if_pos hview, inodeHeader, if_pos hlevel]
      exact congrArg leafHeader hlength
    · have hview : (page.said inodeLeafWidth size).view.level ≠ 0 := hlevel
      have hcount : (page.said inodeLeafWidth size).view.count = page.count :=
        congrArg Prod.fst (PageView.totals_branch hlevel)
      rw [inodeHeader, if_neg hview, inodeHeader, if_neg hlevel, hcount]
      exact congrArg (headerOf _ _ _ · _ _) hlength
  rw [inodeObject, hheader]
  exact congrArg (fun rows : List Bytes => pageObject (inodeHeader page) rows.flatten) hrows

/-- The numbers of a page are numbers of the widths its fields have. -/
structure InodesTyped (page : PageView ℕ (InodeValue ObjectId)) : Prop where
  key_lt : ∀ row ∈ page.rows, row.key < 256 ^ 8
  value_typed : ∀ row ∈ page.rows, ∀ value ∈ row.value, ValueTyped value

def InodesReadBack (page : PageView ℕ (InodeValue ObjectId)) : Prop :=
  (page.level = 0 → ∀ row ∈ page.rows, ∀ value ∈ row.value,
    MetadataValid value.kind value.metadataRoot) ∧
  (page.level ≠ 0 → 2 ≤ page.rows.length ∧ page.bytes = page.count * leafRowBytes)

theorem isBytes_inodeRowFrame (row : InodeEntry) : IsBytes (inodeRowFrame level row) := by
  refine (isBytes_be _ _).append ?_
  split_ifs
  · cases row.value with
    | none => exact forall_mem_nil _
    | some value => exact isBytes_encodeInodeValue value
  · cases row.child with
    | none => exact forall_mem_nil _
    | some child => exact child.isBytes

theorem isBytes_inodeObject (page : PageView ℕ (InodeValue ObjectId)) :
    IsBytes (inodeObject page) := by
  refine isBytes_pageObject ?_ (isBytes_rows (isBytes_inodeRowFrame page.level) _)
  rw [magic_inodeHeader]
  decide

/-- **When an inode page that is written is read back**: as what it says. -/
theorem decode_encodeInodes_iff {page : PageView ℕ (InodeValue ObjectId)}
    (htyped : InodesTyped page) (h : encodeInodes page = .ok canonical) :
    decodeInodes canonical = .ok (page.said inodeLeafWidth canonical.length) ↔
      InodesReadBack page := by
  obtain ⟨hpage, rfl⟩ := encodeInodes_eq_ok.mp h
  rw [decodeInodes_eq_ok (isBytes_inodeObject page), inodeObject_said, and_iff_left rfl]
  constructor
  · intro hread
    refine ⟨fun hlevel row hrow value hvalue => ?_, fun hlevel => ?_⟩
    · obtain ⟨-, found, hfound, -, hvalid⟩ := (hread.leaf hlevel).1 _ (mem_map_of_mem hrow)
      rw [WireEntry.said_leaf hlevel] at hfound
      cases hvalue.symm.trans hfound
      exact hvalid
    · obtain ⟨-, htwo, -, -, hbytes⟩ := hread.branch hlevel
      have htotals : page.totals inodeLeafWidth = _ := PageView.totals_branch hlevel
      rw [PageView.length_said] at htwo
      rw [PageView.said, htotals] at hbytes
      exact ⟨htwo, hbytes⟩
  · rintro ⟨hvalues, hbranch⟩
    refine ⟨hpage.level_le, by rw [PageView.length_said]; exact hpage.length_le,
      by rw [PageView.keys_said]; exact hpage.ascending, fun entry hentry => ?_,
      fun hlevel => ⟨fun entry hentry => ?_, ?_, ?_, ?_⟩,
      fun hlevel => ⟨fun entry hentry => ?_, ?_, ?_⟩, by rw [inodeObject_said]; rfl⟩
    · obtain ⟨row, hrow, rfl⟩ := mem_map.mp hentry
      rw [WireEntry.key_said]
      exact ⟨hpage.serial_ne row hrow, htyped.key_lt row hrow⟩
    · obtain ⟨row, hrow, rfl⟩ := mem_map.mp hentry
      have hlevel' : page.level = 0 := hlevel
      have hfilled := hpage.filled row hrow
      rw [Filled, if_pos hlevel'] at hfilled
      obtain ⟨value, hvalue⟩ := Option.ne_none_iff_exists'.mp hfilled
      rw [WireEntry.said_leaf hlevel']
      exact ⟨rfl, value, hvalue, htyped.value_typed row hrow value hvalue,
        hvalues hlevel' row hrow value hvalue⟩
    · rw [ne_eq, ← length_eq_zero_iff, PageView.length_said, length_eq_zero_iff]
      exact hpage.pos
    · rw [PageView.length_said]
      exact congrArg Prod.fst (PageView.totals_leaf hlevel)
    · rw [PageView.length_said]
      refine (congrArg Prod.snd (PageView.totals_leaf hlevel)).trans ?_
      dsimp only [inodeLeafWidth]
      rw [map_const', sum_replicate, Nat.nsmul_eq_mul]
    · obtain ⟨row, hrow, rfl⟩ := mem_map.mp hentry
      exact WireEntry.branchEntry_said hlevel (hpage.filled row hrow)
    · rw [PageView.length_said]
      exact (hbranch hlevel).1
    · have htotals : page.totals inodeLeafWidth = _ := PageView.totals_branch hlevel
      rw [PageView.length_said, PageView.said, htotals]
      exact ⟨(hpage.summary hlevel).1, (hpage.summary hlevel).2, (hbranch hlevel).2⟩

/-- **An inode page that is read is written again**, as the same bytes. -/
theorem encode_decodeInodes (hbytes : IsBytes canonical) {page : WirePage ℕ (InodeValue ObjectId)}
    (h : decodeInodes canonical = .ok page) : encodeInodes page.view = .ok canonical := by
  obtain ⟨hpage, rfl⟩ := (decodeInodes_eq_ok hbytes).mp h
  refine encodeInodes_eq_ok.mpr ⟨⟨hpage.level_le, ?_, hpage.length_le, hpage.ascending,
    fun row hrow => (hpage.serial row hrow).1, hpage.filled, fun hlevel => ?_⟩, rfl⟩
  · by_cases hlevel : page.level = 0
    · exact (hpage.leaf hlevel).2.1
    · have htwo := (hpage.branch hlevel).2.1
      exact ne_nil_of_length_pos (by dsimp only [WirePage.view]; omega)
  · obtain ⟨-, -, hcount, hbound, -⟩ := hpage.branch hlevel
    exact ⟨hcount, hbound⟩

/-! ## The formats together -/

theorem bytesObject_exact :
    (∀ value canonical, IsBytes value → encodeBytesObject value = .ok canonical →
      decodeBytesObject canonical = .ok value) ∧
    ∀ canonical value, IsBytes canonical → decodeBytesObject canonical = .ok value →
      encodeBytesObject value = .ok canonical := by
  refine ⟨fun value canonical hbytes h => ?_, fun canonical value hbytes h => ?_⟩
  · obtain ⟨hlength, rfl⟩ := encodeBytesObject_eq_ok.mp h
    exact (decodeBytesObject_eq_ok (isBytes_envelope hbytes)).mpr ⟨hlength, rfl⟩
  · exact encodeBytesObject_eq_ok.mpr ((decodeBytesObject_eq_ok hbytes).mp h)

theorem decode_encodeLeaf_iff (htyped : RowsTyped leaf.rows) (h : leaf.encode = .ok canonical) :
    InodeLeaf.decode canonical = .ok leaf ↔ ValuesValid leaf.rows := by
  obtain ⟨hrows, htotal, rfl⟩ := encodeLeaf_eq_ok.mp h
  have hbytes : IsBytes (leafObject leaf.rows) := isBytes_envelope (isBytes_leafFrame leaf.rows)
  rw [decodeLeaf_eq_ok hbytes]
  exact ⟨fun hread => hread.1.2.2, fun hvalues => ⟨⟨hrows, htyped, hvalues⟩, htotal, rfl⟩⟩

theorem encode_decodeLeaf (hbytes : IsBytes canonical) (h : InodeLeaf.decode canonical = .ok leaf) :
    leaf.encode = .ok canonical := by
  obtain ⟨⟨hrows, -, -⟩, htotal, hcanonical⟩ := (decodeLeaf_eq_ok hbytes).mp h
  exact encodeLeaf_eq_ok.mpr ⟨hrows, htotal, hcanonical⟩

/-- **When the formats are canonical**: for each format, which of the pages that are written are
read back, and which of the bytes that are read are written again. The envelope, the inode pages
and the inode leaf write again all they read; a directory branch is written again when it records
no fewer entries than it has rows. -/
theorem pageCodecs_exact_iff (canonical : Bytes) :
    ((∀ value, IsBytes value → encodeBytesObject value = .ok canonical →
        decodeBytesObject canonical = .ok value) ∧
      ∀ value, IsBytes canonical → decodeBytesObject canonical = .ok value →
        encodeBytesObject value = .ok canonical) ∧
    ((∀ page, DirectoryTyped page → encodeDirectory page = .ok canonical →
        (decodeDirectory canonical = .ok (page.said directoryLeafWidth canonical.length) ↔
          DirectoryReadBack page)) ∧
      ∀ page, IsBytes canonical → decodeDirectory canonical = .ok page →
        (encodeDirectory page.view = .ok canonical ↔
          (page.level ≠ 0 → page.entries.length ≤ page.count))) ∧
    ((∀ page, InodesTyped page → encodeInodes page = .ok canonical →
        (decodeInodes canonical = .ok (page.said inodeLeafWidth canonical.length) ↔
          InodesReadBack page)) ∧
      ∀ page, IsBytes canonical → decodeInodes canonical = .ok page →
        encodeInodes page.view = .ok canonical) ∧
    ((∀ leaf : InodeLeaf, RowsTyped leaf.rows → leaf.encode = .ok canonical →
        (InodeLeaf.decode canonical = .ok leaf ↔ ValuesValid leaf.rows)) ∧
      ∀ leaf, IsBytes canonical → InodeLeaf.decode canonical = .ok leaf →
        leaf.encode = .ok canonical) :=
  ⟨⟨fun value => bytesObject_exact.1 value canonical,
      fun value => bytesObject_exact.2 canonical value⟩,
    ⟨fun _ htyped h => decode_encodeDirectory_iff htyped h,
      fun _ hbytes h => encode_decodeDirectory_iff hbytes h⟩,
    ⟨fun _ htyped h => decode_encodeInodes_iff htyped h,
      fun _ hbytes h => encode_decodeInodes hbytes h⟩,
    fun _ htyped h => decode_encodeLeaf_iff htyped h,
    fun _ hbytes h => encode_decodeLeaf hbytes h⟩

def twoEntries : PageView PathName ℕ :=
  ⟨0, 0, 0, [⟨letter 0, none, some 5⟩, ⟨letter 1, none, some 6⟩]⟩

theorem twoEntries_writable : DirectoryWritable twoEntries := by
  refine ⟨by decide, by decide, pairwise_pair.mpr (by decide), ?_, fun h => absurd rfl h, ?_⟩
  · intro row hrow
    obtain rfl | rfl := mem_pair.mp hrow <;> exact Option.some_ne_none _
  · rw [length_directoryObject]
    decide

/-- A directory leaf of two entries is written and read back. -/
theorem pageCodecs_exact_entries :
    decodeDirectory (directoryObject twoEntries) =
      .ok (twoEntries.said directoryLeafWidth (directoryObject twoEntries).length) := by
  have hwritten : encodeDirectory twoEntries = .ok (directoryObject twoEntries) :=
    encodeDirectory_eq_ok.mpr ⟨twoEntries_writable, rfl⟩
  have htyped : DirectoryTyped twoEntries := by
    refine ⟨by decide, by decide, fun row hrow serial hserial => ?_⟩
    obtain rfl | rfl := mem_pair.mp hrow <;> cases hserial <;> decide
  refine ((pageCodecs_exact_iff _).2.1.1 twoEntries htyped hwritten).mpr
    ⟨fun _ row hrow => ?_, fun h => absurd rfl h⟩
  obtain rfl | rfl := mem_pair.mp hrow <;> exact fun h => by cases h

def shortBranch : WirePage PathName ℕ :=
  ⟨1, 1, 0, [⟨letter 0, some InodeCodec.zeroId, none⟩, ⟨letter 1, some InodeCodec.zeroId, none⟩], 114⟩

theorem shortBranch_readable : DirectoryReadable shortBranch := by
  have hlength : (directoryObject shortBranch.view).length = 114 := by
    rw [length_directoryObject]
    decide
  refine ⟨by decide, ?_, fun h => absurd h Nat.one_ne_zero, fun _ => ⟨?_, by decide, by decide,
    by decide⟩, hlength.symm, hlength ▸ by decide⟩
  · refine pairwise_pair.mpr ?_
    decide
  · intro entry hentry
    rcases mem_cons.mp hentry with rfl | hentry
    · exact ⟨rfl, Option.some_ne_none _⟩
    · cases mem_singleton.mp hentry
      exact ⟨rfl, Option.some_ne_none _⟩

/-- Such a branch is accepted, and its decoded page is refused for a subtree of too few entries. -/
theorem decodeDirectory_not_canonical :
    ¬ ∀ canonical page, IsBytes canonical → decodeDirectory canonical = .ok page →
      encodeDirectory page.view = .ok canonical := by
  intro hall
  have hbytes := isBytes_directoryObject shortBranch.view
  have hwritten := hall _ shortBranch hbytes
    ((decodeDirectory_eq_ok hbytes).mpr ⟨shortBranch_readable, rfl⟩)
  have hsummary := (encodeDirectory_eq_ok.mp hwritten).1.summary Nat.one_ne_zero
  exact absurd hsummary (by decide)

end LayerFs.SortedCodec
