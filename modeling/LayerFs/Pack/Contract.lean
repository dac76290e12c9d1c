import LayerFs.Pack.RoundTrip

/-!
# The pack contract

What a reader gets of a pack: the bodies of its groups and the records framed in them.

* `pack_roundTrip` — **a pack of built groups gives back its groups and their records**, and every
  pack the parser accepts is tiled by its groups, with no record outside its group.
-/

namespace LayerFs

namespace Pack

open Save (PackLane)

variable {view : GroupView} {records : List (List UInt8)} {views : List GroupView}
  {bytes : List UInt8} {header : PackHeader} {lane : PackLane} {zstandard : Zstandard}

/-! ## Bodies -/

def codecBody (zstandard : Zstandard) (view : GroupView) (selected : List UInt8) :
    PackResult (List UInt8) :=
  match view.codec with
  | .raw => .ok selected
  | .zstandard => decompressGroup zstandard selected view.decodedLength

/-- The body `decode_selected_group` frames its records in. -/
def viewBody (zstandard : Zstandard) (bytes : List UInt8) (view : GroupView) :
    PackResult (List UInt8) := do
  let selected ← present (range? bytes view.start view.stop) (.integrity "selected group length")
  let body ← codecBody zstandard view selected
  demand (body.length = view.decodedLength) (.integrity "group body length")
  return body

/-- A group built from records, with or without the compression workspace. -/
def Builds (zstandard : Zstandard) (lane : PackLane) (records : List (List UInt8))
    (group : EncodedGroup) : Prop :=
  ∃ workspace, (workspace = none ∨ workspace = some zstandard) ∧
    buildGroup lane records workspace = .ok group

/-- **A pack read back**: the directory is that of the groups, a view holds its group's bytes, and
every record a group was built from is framed in its body. -/
structure ReadsBack (zstandard : Zstandard) (lane : PackLane)
    (contents : List (List (List UInt8))) (groups : List EncodedGroup) (pack : List UInt8)
    (header : PackHeader) (views : List GroupView) : Prop where
  parsed : parseHeader pack = .ok header
  sameLane : header.lane = lane
  used : header.used = pack.length
  directory : directoryGroupViews pack header = .ok views
  tiles : Tiles header.bodyOffset views header.used
  count : views.length = groups.length
  group : ∀ {i : ℕ} {view : GroupView} {group : EncodedGroup}, views[i]? = some view → groups[i]? = some group →
    groupView pack header i = .ok view ∧ view.decodedLength = group.decodedLength ∧
      view.codec = group.codec ∧ range? pack view.start view.stop = some group.bytes
  record : ∀ {i : ℕ} {view : GroupView} {records : List (List UInt8)}, views[i]? = some view →
    contents[i]? = some records →
    ∃ body, viewBody zstandard pack view = .ok body ∧
      ∀ {k : ℕ} {record : List UInt8}, (storedRecords lane records)[k]? = some record →
        framedRecord body k = .ok record

/-- **A pack its groups tile**: bodies in order, disjoint, from the body offset to the end, and no
record outside the body it is framed in. -/
structure WellTiled (bytes : List UInt8) (header : PackHeader) (views : List GroupView) : Prop where
  used : header.used = bytes.length
  count : views.length = header.groupCount
  tiles : Tiles header.bodyOffset views header.used
  disjoint : views.Pairwise fun a b => a.stop ≤ b.start
  record : ∀ {zstandard view body ordinal record}, view ∈ views →
    viewBody zstandard bytes view = .ok body → framedRecord body ordinal = .ok record →
    ∃ start stop, start < stop ∧ stop ≤ body.length ∧ range? body start stop = some record ∧
      (view.codec = .raw → view.start + stop ≤ view.stop ∧
        range? bytes (view.start + start) (view.start + stop) = some record)

/-! ## Reading back -/

theorem viewBody_built {workspace : Option Zstandard} {group : EncodedGroup}
    (hlawful : zstandard.Lawful) (hworkspace : workspace = none ∨ workspace = some zstandard)
    (h : BuiltFrom lane records workspace group)
    (hrange : range? bytes view.start view.stop = some group.bytes)
    (hdecoded : view.decodedLength = group.decodedLength) (hcodec : view.codec = group.codec) :
    viewBody zstandard bytes view = .ok (framed (storedRecords lane records)) := by
  have hbody : codecBody zstandard view group.bytes = .ok (framed (storedRecords lane records)) := by
    rcases h.body with ⟨hraw, hbytes⟩ | ⟨hlane, hzstandard, found, hfound, hframe, hshort⟩
    · rw [codecBody, hcodec, hraw, hbytes]
    · have hsame : found = zstandard := by
        rcases hworkspace with rfl | rfl
        · cases hfound
        · exact (Option.some.inj hfound).symm
      subst hsame
      have hne := hlawful.nonempty hframe
      have hpos := List.length_pos_iff.mpr hne
      have hlimit : group.decodedLength ≤ groupLimit := by
        have := h.frameable.fits
        rw [← length_framed, ← h.decoded, hlane] at this
        exact this
      have hlength := h.decoded
      have hbound : groupLimit ≤ groupFrameLimit := by decide
      rw [codecBody, hcodec, hzstandard, hdecoded]
      simp only [decompressGroup]
      rw [(demand_eq_ok (u := ())).mpr
        (decide_eq_true ⟨hne, by omega, hlimit, by omega⟩), hlength]
      exact hlawful.roundTrip hframe
  simp only [viewBody, pack_bind_eq_ok, present_eq_ok, demand_eq_ok]
  refine ⟨group.bytes, hrange, framed (storedRecords lane records), hbody, (), ?_, rfl⟩
  exact decide_eq_true (by rw [hdecoded, h.decoded])

theorem groupView_of_views {i : ℕ} (hused : bytes.length = header.used)
    (hcount : views.length = header.groupCount) (h : directoryGroupViews bytes header = .ok views)
    (hview : views[i]? = some view) : groupView bytes header i = .ok view := by
  have hi : i < header.groupCount := by
    rw [← hcount]
    exact (List.getElem?_eq_some_iff.mp hview).1
  simp only [directoryGroupViews, pack_bind_eq_ok, demand_eq_ok] at h
  obtain ⟨_, hwidth, hvisit⟩ := h
  simp only [groupView, directoryGroupView, pack_bind_eq_ok, demand_eq_ok, present_eq_ok]
  exact ⟨(), decide_eq_true hused, (), hwidth, (), decide_eq_true hi, views, hvisit,
    hview⟩

theorem framedRecord_of_getElem? {record : List UInt8} {limit k : ℕ} (h : Frameable records limit)
    (hlimit : limit ≤ singletonPackLimit) (hrecord : records[k]? = some record) :
    framedRecord (framed records) k = .ok record := by
  obtain ⟨before, after, hsplit, rfl⟩ := split_of_getElem? hrecord
  exact framedRecord_framed h hlimit hsplit

theorem bodyLimit_le_singletonPackLimit : bodyLimit lane ≤ singletonPackLimit := by
  cases lane <;> decide

theorem readsBack_assemble {contents : List (List (List UInt8))} {groups : List EncodedGroup}
    {pack : List UInt8} (hlawful : zstandard.Lawful)
    (hbuilt : List.Forall₂ (Builds zstandard lane) contents groups)
    (h : assemble lane groups = .ok pack) :
    ∃ header views, ReadsBack zstandard lane contents groups pack header views := by
  have hsources : ∀ {i : ℕ} {group : EncodedGroup} {records : List (List UInt8)}, groups[i]? = some group → contents[i]? = some records →
      ∃ workspace, (workspace = none ∨ workspace = some zstandard) ∧
        BuiltFrom lane records workspace group := by
    intro i group records hgroup hrecords
    obtain ⟨hi, rfl⟩ := List.getElem?_eq_some_iff.mp hgroup
    obtain ⟨hj, rfl⟩ := List.getElem?_eq_some_iff.mp hrecords
    obtain ⟨workspace, hworkspace, hbuild⟩ := hbuilt.get hj hi
    exact ⟨workspace, hworkspace, buildGroup_eq_ok hbuild⟩
  have hplace : ∀ group ∈ groups, Placeable lane group := by
    intro group hgroup
    obtain ⟨i, hi, rfl⟩ := List.getElem_of_mem hgroup
    have hj : i < contents.length := by rw [hbuilt.length_eq]; exact hi
    obtain ⟨workspace, hworkspace, hbuild⟩ :=
      hsources (List.getElem?_eq_getElem hi) (List.getElem?_eq_getElem hj)
    refine hbuild.placeable fun z hz => ?_
    rcases hworkspace with rfl | rfl
    · cases hz
    · exact (Option.mem_some_iff.mp hz) ▸ hlawful
  have hheader := parseHeader_assemble h hplace
  have hviews := directoryGroupViews_assemble h hplace
  obtain ⟨htiles, hcount⟩ := directoryGroupViews_tiles hheader hviews
  have hgroups : ∀ {i : ℕ} {view : GroupView} {group : EncodedGroup},
      (viewsFrom (sizedBodyOffset lane groups.length) groups)[i]? = some view →
      groups[i]? = some group → view.decodedLength = group.decodedLength ∧
        view.codec = group.codec ∧ range? pack view.start view.stop = some group.bytes := by
    intro i view group hview hgroup
    obtain ⟨before, after, rfl, rfl⟩ := split_of_getElem? hgroup
    rw [viewsFrom_split] at hview
    cases hview
    exact ⟨rfl, rfl, range?_view h⟩
  refine ⟨_, _, hheader, rfl, rfl, hviews, htiles, hcount, ?_, ?_⟩
  · intro i view group hview hgroup
    exact ⟨groupView_of_views rfl hcount hviews hview, hgroups hview hgroup⟩
  · intro i view records hview hrecords
    have hi : i < groups.length := by
      rw [← hbuilt.length_eq]
      exact (List.getElem?_eq_some_iff.mp hrecords).1
    have hgroup := List.getElem?_eq_getElem hi
    obtain ⟨workspace, hworkspace, hbuild⟩ := hsources hgroup hrecords
    obtain ⟨hdecoded, hcodec, hrange⟩ := hgroups hview hgroup
    refine ⟨_, viewBody_built hlawful hworkspace hbuild hrange hdecoded hcodec, ?_⟩
    intro k record hrecord
    exact framedRecord_of_getElem? hbuild.frameable bodyLimit_le_singletonPackLimit hrecord

/-! ## Accepted packs -/

theorem range?_range? {part out : List UInt8} {start stop first last : ℕ}
    (hpart : range? bytes start stop = some part) (hout : range? part first last = some out) :
    start + last ≤ stop ∧ range? bytes (start + first) (start + last) = some out := by
  have hlength := length_of_range? hpart
  obtain ⟨hle, hbytes, rfl⟩ := range?_eq_some.mp hpart
  obtain ⟨hfirst, hlast, rfl⟩ := range?_eq_some.mp hout
  refine ⟨by omega, range?_eq_some.mpr ⟨by omega, by omega, ?_⟩⟩
  rw [List.drop_take, List.take_take, List.drop_drop, Nat.min_eq_left (by omega),
    Nat.add_sub_add_left]

theorem wellTiled_of_accepted (hheader : parseHeader bytes = .ok header)
    (hviews : directoryGroupViews bytes header = .ok views) : WellTiled bytes header views := by
  obtain ⟨htiles, hcount⟩ := directoryGroupViews_tiles hheader hviews
  refine ⟨(parseHeader_eq_ok hheader).2.1, hcount, htiles, htiles.disjoint, ?_⟩
  intro zstandard view body ordinal record hview hbody hrecord
  obtain ⟨start, stop, hlt, hstop, hrange⟩ := framedRecord_eq_ok hrecord
  refine ⟨start, stop, hlt, hstop, hrange, fun hraw => ?_⟩
  simp only [viewBody, pack_bind_eq_ok, present_eq_ok] at hbody
  obtain ⟨selected, hselected, _, hcodec, -, -, hvalue⟩ := hbody
  cases hvalue
  rw [codecBody, hraw] at hcodec
  cases hcodec
  exact range?_range? hselected hrange

/-! ## The contract -/

/-- **A pack of built groups gives back its groups and their records, and every pack the parser
accepts is tiled by its groups.** Groups come from `build_group`, as every group the store places
does; a whole-file group holds its records without their two length fields. -/
theorem pack_roundTrip {zstandard : Zstandard} (hlawful : zstandard.Lawful) :
    (∀ {lane contents groups pack}, List.Forall₂ (Builds zstandard lane) contents groups →
      assemble lane groups = .ok pack →
      ∃ header views, ReadsBack zstandard lane contents groups pack header views) ∧
    (∀ {bytes header views}, parseHeader bytes = .ok header →
      directoryGroupViews bytes header = .ok views → WellTiled bytes header views) :=
  ⟨fun hbuilt h => readsBack_assemble hlawful hbuilt h,
    fun hheader hviews => wellTiled_of_accepted hheader hviews⟩

/-- The header of a Zstandard frame that holds a short body as one stored block. -/
def storedHeader (length : ℕ) : List UInt8 :=
  [0x28, 0xB5, 0x2F, 0xFD, 0x20, UInt8.ofNat length] ++ (le32 (8 * length + 1)).take 3

def storedBlock : Zstandard where
  compress raw := if raw.length < 256 then .ok (storedHeader raw.length ++ raw)
    else .error (.integrity "stored block length")
  decompress frame length := if frame.take 9 = storedHeader length then .ok (frame.drop 9)
    else .error (.integrity "stored block header")

theorem storedBlock_lawful : storedBlock.Lawful := by
  have hframe : ∀ {raw frame}, storedBlock.compress raw = .ok frame →
      frame = storedHeader raw.length ++ raw := by
    intro raw frame h
    simp only [storedBlock] at h
    split_ifs at h
    exact (Except.ok.inj h).symm
  refine ⟨fun h => ?_, fun h => ?_⟩
  · rw [hframe h]
    exact List.cons_ne_nil _ _
  · rw [hframe h]
    exact if_pos rfl

/-- An ordinary pack of two short groups, offered to the compressor and kept raw. -/
theorem pack_roundTrip_short : ∃ groups pack, assemble .ordinary groups = .ok pack ∧
    ∃ header views, ReadsBack storedBlock .ordinary [[[5], [6, 7]], [[8]]] groups pack header views ∧
      WellTiled pack header views := by
  have hfirst : buildGroup .ordinary [[5], [6, 7]] (some storedBlock) =
      .ok ⟨framed [[5], [6, 7]], 15, 2, .raw⟩ := by decide
  have hsecond : buildGroup .ordinary [[8]] (some storedBlock) =
      .ok ⟨framed [[8]], 9, 1, .raw⟩ := by decide
  obtain ⟨pack, hpack⟩ : ∃ pack, assemble .ordinary
      [⟨framed [[5], [6, 7]], 15, 2, .raw⟩, ⟨framed [[8]], 9, 1, .raw⟩] = .ok pack := ⟨_, rfl⟩
  obtain ⟨hback, htiled⟩ := pack_roundTrip storedBlock_lawful
  obtain ⟨header, views, hread⟩ :=
    hback (.cons ⟨_, .inr rfl, hfirst⟩ (.cons ⟨_, .inr rfl, hsecond⟩ .nil)) hpack
  exact ⟨_, pack, hpack, header, views, hread, htiled hread.parsed hread.directory⟩

/-- A group made by hand, whose decoded length is not that of its raw body, is assembled and then
refused by the directory reader. -/
theorem assemble_misdeclared : ∃ pack header,
    assemble .chunk [⟨[7], 2, 1, .raw⟩] = .ok pack ∧ parseHeader pack = .ok header ∧
      directoryGroupViews pack header = .error (.integrity "group codec") :=
  ⟨_, _, rfl, rfl, rfl⟩

end Pack

end LayerFs
