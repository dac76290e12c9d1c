import LayerFs.Pack.Assemble

/-!
# Packs are read as they were written

* `framedRecord_framed` — **a record of a framed body is read back**.
-/

namespace LayerFs

open List

namespace Pack

open Save (PackLane)

variable {group : EncodedGroup} {records rest : List (List UInt8)}
  {after before groups : List EncodedGroup} {directory front pack record tail : List UInt8}
  {header : PackHeader} {lane : PackLane} {areaLength areaStart index offset ordinal previous : ℕ}
  {selected : ℕ × ℕ}

/-! ## Words -/

theorem wordAt_append {before after : List UInt8} {n offset : ℕ} (hn : n < 2 ^ 32)
    (hoffset : offset = before.length) : wordAt (before ++ le32 n ++ after) offset = n := by
  subst hoffset
  rw [wordAt, append_assoc, drop_left, take_left' length_le32, ofLe32_le32 hn]

/-! ## Records -/

theorem recordLoop_cons (hfront : front.length = 4 * index) (hrecord : record ≠ [])
    (harea : previous + (record :: rest).flatten.length = areaLength) (hword : areaLength < 2 ^ 32)
    :
    recordLoop (front ++ endsOf previous (record :: rest)) areaStart areaLength ordinal
        (record :: rest).length index previous selected =
      recordLoop (front ++ le32 (previous + record.length) ++ endsOf (previous + record.length) rest)
        areaStart areaLength ordinal rest.length (index + 1) (previous + record.length)
        (if index = ordinal then (areaStart + previous, areaStart + (previous + record.length))
          else selected) := by
  have hpos : 0 < record.length := length_pos_iff.mpr hrecord
  rw [flatten_cons, length_append] at harea
  have hends : front ++ endsOf previous (record :: rest) =
      front ++ le32 (previous + record.length) ++ endsOf (previous + record.length) rest := by
    rw [endsOf, append_assoc]
  have hstop : wordAt (front ++ endsOf previous (record :: rest)) (4 * index) =
      previous + record.length := by
    rw [hends]
    exact wordAt_append (by omega) hfront.symm
  have hcheck : demand (decide (previous < previous + record.length ∧
      previous + record.length ≤ areaLength)) (.integrity "record end ordering") = .ok () :=
    demand_eq_ok.mpr (decide_eq_true ⟨by omega, by omega⟩)
  rw [length_cons, recordLoop, hstop, hcheck, hends]
  rfl

theorem recordLoop_past (hfront : front.length = 4 * index) (hfilled : ∀ record ∈ rest, record ≠ [])
    (harea : previous + rest.flatten.length = areaLength) (hword : areaLength < 2 ^ 32)
    (hpast : ordinal < index) :
    recordLoop (front ++ endsOf previous rest) areaStart areaLength ordinal rest.length index
      previous selected = .ok selected := by
  induction rest generalizing front index previous with
  | nil =>
    simp only [flatten_nil, length_nil, Nat.add_zero] at harea
    simp [recordLoop, harea, demand, bind, Except.bind, pure, Except.pure]
  | cons record rest ih =>
    rw [recordLoop_cons hfront (hfilled record mem_cons_self) harea hword,
      if_neg (by omega)]
    rw [flatten_cons, length_append] at harea
    refine ih ?_ (fun r hr => hfilled r (mem_cons_of_mem record hr)) (by omega) (by omega)
    rw [length_append, length_le32, hfront]
    omega

theorem recordLoop_found {front : List UInt8} {areaStart areaLength ordinal index previous : ℕ}
    {selected : ℕ × ℕ} {before after : List (List UInt8)} {record : List UInt8}
    (hfront : front.length = 4 * index)
    (hfilled : ∀ r ∈ before ++ record :: after, r ≠ [])
    (harea : previous + (before ++ record :: after).flatten.length = areaLength)
    (hword : areaLength < 2 ^ 32) (hordinal : index + before.length = ordinal) :
    recordLoop (front ++ endsOf previous (before ++ record :: after)) areaStart areaLength ordinal
      (before ++ record :: after).length index previous selected =
      .ok (areaStart + (previous + before.flatten.length),
        areaStart + (previous + before.flatten.length + record.length)) := by
  induction before generalizing front index previous selected with
  | nil =>
    simp only [length_nil, Nat.add_zero] at hordinal
    simp only [nil_append] at hfilled harea ⊢
    rw [recordLoop_cons hfront (hfilled record mem_cons_self) harea hword, if_pos hordinal]
    rw [flatten_cons, length_append] at harea
    refine (recordLoop_past ?_ (fun r hr => hfilled r (mem_cons_of_mem record hr)) (by omega)
      hword (by omega)).trans (by simp)
    rw [length_append, length_le32, hfront]
    omega
  | cons first before ih =>
    simp only [cons_append, length_cons] at hfilled harea hordinal
    rw [cons_append, recordLoop_cons hfront (hfilled first mem_cons_self) harea hword,
      if_neg (by omega)]
    rw [flatten_cons, length_append] at harea
    refine (ih ?_ (fun r hr => hfilled r (mem_cons_of_mem first hr)) (by omega)
      (by omega)).trans ?_
    · rw [length_append, length_le32, hfront]
      omega
    · rw [flatten_cons, length_append]
      simp only [Except.ok.injEq, Prod.mk.injEq]
      omega

/-- **A record of a framed body is read back.** -/
theorem framedRecord_framed {before after : List (List UInt8)} {limit : ℕ}
    (h : Frameable records limit) (hlimit : limit ≤ singletonPackLimit)
    (hrecords : records = before ++ record :: after) :
    framedRecord (framed records) before.length = .ok record := by
  have hlength : (framed records).length = 4 + 4 * records.length + records.flatten.length := by
    rw [length_framed, framedLength, framedGroupLength]
  have hsmall : framedLength records ≤ singletonPackLimit := h.fits.trans hlimit
  have hbound : singletonPackLimit < 2 ^ 32 := by decide
  have hframed : framedLength records = 4 + 4 * records.length + records.flatten.length := rfl
  have hcount : wordAt (framed records) 0 = records.length := by
    have hword := @wordAt_append [] (endsOf 0 records ++ records.flatten) records.length 0
      (by omega) rfl
    rw [framed, append_assoc]
    exact hword
  have hends : range? (framed records) 4 (4 + 4 * records.length) = some (endsOf 0 records) :=
    range?_append rfl (by rw [length_le32, length_endsOf])
  have hordinal : before.length < records.length := by
    rw [hrecords, length_append, length_cons]
    omega
  have hpos : 1 ≤ records.length := length_pos_iff.mpr h.nonempty
  have hrange : recordRange records.length (endsOf 0 records) (framed records).length
      before.length = .ok (4 + 4 * records.length + before.flatten.length,
        4 + 4 * records.length + before.flatten.length + record.length) := by
    simp only [recordRange, length_endsOf]
    rw [(demand_eq_ok (u := ())).mpr (decide_eq_true ⟨⟨hpos, h.count⟩, hordinal, by omega, trivial⟩)]
    rw [(demand_eq_ok (u := ())).mpr (decide_eq_true (by omega))]
    have hloop := @recordLoop_found [] (4 + 4 * records.length) records.flatten.length
      before.length 0 0 (0, 0) before after record rfl (fun r hr => h.filled r (hrecords ▸ hr))
      (by rw [← hrecords, Nat.zero_add]) (by omega) (Nat.zero_add _)
    rw [← hrecords] at hloop
    have harea : (framed records).length - (4 + 4 * records.length) = records.flatten.length := by
      omega
    rw [harea]
    exact hloop.trans (congrArg Except.ok
      (Prod.ext (by dsimp only; omega) (by dsimp only; omega)))
  have hrecord : range? (framed records) (4 + 4 * records.length + before.flatten.length)
      (4 + 4 * records.length + before.flatten.length + record.length) = some record := by
    have hsplit : framed records = (le32 records.length ++ endsOf 0 records ++ before.flatten)
        ++ record ++ after.flatten := by
      rw [framed, hrecords]
      simp [append_assoc]
    have hfront : (le32 records.length ++ endsOf 0 records ++ before.flatten).length =
        4 + 4 * records.length + before.flatten.length := by
      rw [length_append, length_append, length_le32, length_endsOf]
    rw [hsplit]
    exact range?_append hfront.symm (by rw [hfront])
  simp only [framedRecord]
  rw [(demand_eq_ok (u := ())).mpr (decide_eq_true (by omega)), hcount, hends]
  simp only [present, bind, Except.bind, hrange, hrecord]

/-! ## Groups in a pack -/

def viewsFrom : ℕ → List EncodedGroup → List GroupView
  | _, [] => []
  | offset, group :: groups =>
    ⟨offset, offset + group.bytes.length, group.decodedLength, group.codec⟩ ::
      viewsFrom (offset + group.bytes.length) groups

/-- A group whose directory entry its lane's reader accepts. -/
structure Placeable (lane : PackLane) (group : EncodedGroup) : Prop where
  nonempty : group.bytes ≠ []
  raw_eq : group.codec = .raw → group.bytes.length = group.decodedLength
  shorter : group.bytes.length ≤ group.decodedLength
  bounded : group.decodedLength ≤ bodyLimit lane
  raw : lane ≠ .ordinary → group.codec = .raw
  wide : lane = .wholeFile → 2 ≤ group.bytes.length

/-- **Built groups are placeable.** -/
theorem BuiltFrom.placeable {workspace : Option Zstandard}
    (h : BuiltFrom lane records workspace group) (hlawful : ∀ z ∈ workspace, z.Lawful) :
    Placeable lane group := by
  have hbody : 9 ≤ (framed (storedRecords lane records)).length := by
    rw [length_framed]
    rcases hstored : storedRecords lane records with _ | ⟨record, rest⟩
    · exact absurd hstored h.frameable.nonempty
    · have hfilled := h.frameable.filled record (by rw [hstored]; exact mem_cons_self)
      have hpos : 0 < record.length := length_pos_iff.mpr hfilled
      simp only [framedLength, framedGroupLength, length_cons, flatten_cons,
        length_append]
      omega
  have hbounded : group.decodedLength ≤ bodyLimit lane := by
    rw [h.decoded, length_framed]
    exact h.frameable.fits
  rcases h.body with ⟨hcodec, hbytes⟩ | ⟨hlane, hcodec, zstandard, hworkspace, hframe, hshort⟩
  · refine ⟨?_, fun _ => by rw [hbytes, h.decoded], by rw [hbytes, h.decoded], hbounded,
      fun _ => hcodec, fun _ => by rw [hbytes]; omega⟩
    intro hnil
    rw [← hbytes, hnil, length_nil] at hbody
    omega
  · refine ⟨(hlawful zstandard hworkspace).nonempty hframe, fun hraw => ?_, ?_, hbounded,
      fun hne => absurd hlane hne, fun hwhole => ?_⟩
    · rw [hcodec] at hraw
      cases hraw
    · rw [h.decoded]
      omega
    · rw [hlane] at hwhole
      cases hwhole

theorem assemble_eq_ok (h : assemble lane groups = .ok pack) :
    groups ≠ [] ∧ groups.length ≤ lane.groupCountLimit ∧ pack.length ≤ lanePackLimit lane ∧
      ∃ entries, directoryEntries lane groups (sizedBodyOffset lane groups.length) = .ok entries ∧
        headerLen + entries.length = sizedBodyOffset lane groups.length ∧
        pack = (packMagic ++ le32 (versionOf lane).number ++ le32 groups.length ++
          le32 pack.length ++ [0, 0, 0, 0]) ++ entries ++ bodyBytes groups := by
  simp only [assemble, checkedPackLength, controlArea, pack_bind_eq_ok, demand_eq_ok, fits_eq_ok,
    word_eq_ok] at h
  obtain ⟨length, ⟨-, hcount, -, hfits, hlength⟩, entries, hentries, area,
    ⟨_, ⟨-, rfl⟩, _, ⟨-, rfl⟩, harea⟩, -, hwidth, -, htotal, hpack⟩ := h
  cases hlength
  cases harea
  cases hpack
  have hcount := of_decide_eq_true hcount
  have hwidth := of_decide_eq_true hwidth
  have htotal := of_decide_eq_true htotal
  have hregion : headerLen ≤ sizedBodyOffset lane groups.length := Nat.le_add_right _ _
  refine ⟨hcount.1, hcount.2, by rw [htotal]; exact hfits, entries, hentries, by omega, ?_⟩
  rw [htotal]

/-- **The header of an assembled pack.** -/
theorem parseHeader_assemble (h : assemble lane groups = .ok pack)
    (hplace : ∀ group ∈ groups, Placeable lane group) :
    parseHeader pack =
      .ok ⟨lane, groups.length, pack.length, sizedBodyOffset lane groups.length⟩ := by
  obtain ⟨hne, hcount, hlimit, entries, -, hentries, hpack⟩ := assemble_eq_ok h
  have hlong : lanePackLimit lane < 2 ^ 32 := by cases lane <;> decide
  have hpos : 1 ≤ groups.length := length_pos_iff.mpr hne
  have hsmall : groups.length < 2 ^ 32 := by
    have : lane.groupCountLimit ≤ 16 := by cases lane <;> decide
    omega
  generalize hcontrol : packMagic ++ le32 (versionOf lane).number ++ le32 groups.length ++
    le32 pack.length ++ [0, 0, 0, 0] = control at hpack
  have hrange : range? pack 0 headerLen = some control := by
    have := @range?_append 0 headerLen [] control (entries ++ bodyBytes groups) rfl
      (by rw [← hcontrol]; rfl)
    rw [hpack]
    simpa [append_assoc] using this
  have hversion : wordAt control 8 = (versionOf lane).number := by
    rw [← hcontrol]
    exact ofLe32_le32 (by cases lane <;> decide)
  have hgroups : wordAt control 12 = groups.length := by
    rw [← hcontrol]
    exact ofLe32_le32 hsmall
  have hused : wordAt control 16 = pack.length := by
    rw [← hcontrol]
    exact ofLe32_le32 (by omega)
  have hmagic : control.take 8 = packMagic := by
    rw [← hcontrol]
    rfl
  have hreserved : (control.drop 20).take 4 = [0, 0, 0, 0] := by
    rw [← hcontrol]
    rfl
  have hbodies : sizedBodyOffset lane groups.length + 1 ≤ pack.length := by
    have hlen : pack.length = headerLen + entries.length + (bodyBytes groups).length := by
      have hheader : control.length = headerLen := by
        rw [← hcontrol]
        rfl
      rw [hpack, length_append, length_append, hheader]
    obtain ⟨group, rest, hcons⟩ := exists_cons_of_ne_nil hne
    have hgroup := length_pos_iff.mpr (hplace group (by simp [hcons])).nonempty
    have hbody : 0 < (bodyBytes groups).length := by
      rw [hcons, bodyBytes, map_cons, flatten_cons, length_append]
      omega
    omega
  have hof : Version.ofNumber (versionOf lane).number = some (versionOf lane) := by
    cases lane <;> rfl
  have hlane : (versionOf lane).lane = lane := by cases lane <;> rfl
  have hslots : (if (versionOf lane).sized then groups.length else (versionOf lane).slots) =
      groups.length := by
    cases lane with
    | singleton => exact le_antisymm hpos hcount
    | ordinary => rfl
    | chunk => rfl
    | wholeFile => rfl
  have hallowed : groups.length ≤
      if lane = .singleton then groupCountLimit else (versionOf lane).slots := by
    cases lane with
    | singleton => exact hcount.trans (by decide)
    | ordinary => exact hcount
    | chunk => exact hcount
    | wholeFile => exact hcount
  have hsingle : lane ≠ .singleton ∨ groups.length = 1 := by
    by_cases hlane : lane = .singleton
    · subst hlane
      exact .inr (le_antisymm hcount hpos)
    · exact .inl hlane
  simp only [parseHeader, parseDirectoryHeader, parseControlHeader, pack_bind_eq_ok, demand_eq_ok,
    present_eq_ok]
  refine ⟨⟨lane, groups.length, pack.length, sizedBodyOffset lane groups.length⟩,
    ⟨control, hrange, (), decide_eq_true hmagic, versionOf lane, by rw [hversion, hof], (), ?_,
      (), decide_eq_true hreserved, (), decide_eq_true ⟨hused, le_rfl⟩, (), ?_, (), ?_, (), ?_, ?_⟩,
    (), decide_eq_true (by dsimp only; omega), rfl⟩
  · rw [hgroups, hlane]
    exact decide_eq_true ⟨hpos, hallowed⟩
  · rw [hgroups, hlane, hslots, hused]
    exact decide_eq_true hbodies
  · rw [hlane]
    exact decide_eq_true hlimit
  · rw [hgroups, hlane]
    exact decide_eq_true hsingle
  · rw [hgroups, hlane, hslots, hused]
    rfl

/-! ## The directory of an assembled pack -/

theorem entryCodec_placeable (h : Placeable lane group) :
    entryCodec lane group.codec.flag group.bytes.length group.decodedLength =
      some group.codec := by
  rcases hcodec : group.codec with _ | _
  · rw [entryCodec, if_pos ⟨rfl, h.raw_eq hcodec⟩]
  · rw [entryCodec, if_neg (fun hflag => absurd hflag.1 (by decide)),
      if_pos ⟨rfl, h.shorter, h.bounded⟩]

def entryBytes (offset : ℕ) (group : EncodedGroup) : List UInt8 :=
  le32 offset ++ le32 group.bytes.length ++ le32 group.decodedLength ++ [group.codec.flag, 0, 0, 0]

theorem directoryEntry_eq_ok {entry : List UInt8} (hlane : lane ≠ .wholeFile)
    (h : directoryEntry lane offset group = .ok entry) :
    offset < 2 ^ 32 ∧ group.bytes.length < 2 ^ 32 ∧ group.decodedLength < 2 ^ 32 ∧
      entry = entryBytes offset group := by
  cases lane with
  | wholeFile => exact absurd rfl hlane
  | ordinary | chunk | singleton =>
    simp only [directoryEntry, pack_bind_eq_ok, word_eq_ok] at h
    obtain ⟨_, ⟨hoffset, rfl⟩, _, ⟨hencoded, rfl⟩, _, ⟨hdecoded, rfl⟩, hvalue⟩ := h
    exact ⟨hoffset, hencoded, hdecoded, (Except.ok.inj hvalue).symm⟩

theorem ordinaryEntry_placeable {bytes : List UInt8} (h : Placeable header.lane group)
    (hsingle : header.lane ≠ .singleton ∨ header.groupCount = 1) (hoffset : offset < 2 ^ 32)
    (hencoded : group.bytes.length < 2 ^ 32) (hdecoded : group.decodedLength < 2 ^ 32)
    (hused : offset + group.bytes.length ≤ header.used)
    (hrange : range? bytes (headerLen + 16 * index) (headerLen + 16 * index + 16) =
      some (entryBytes offset group)) :
    ordinaryEntry bytes header index offset =
      .ok ⟨offset, offset + group.bytes.length, group.decodedLength, group.codec⟩ := by
  generalize hentry : entryBytes offset group = entry at hrange
  have hstart : wordAt entry 0 = offset := by
    rw [← hentry]
    exact ofLe32_le32 hoffset
  have hlength : wordAt entry 4 = group.bytes.length := by
    rw [← hentry]
    exact ofLe32_le32 hencoded
  have hdecodedAt : wordAt entry 8 = group.decodedLength := by
    rw [← hentry]
    exact ofLe32_le32 hdecoded
  have hflag : (entry.drop 12).headD 0 = group.codec.flag := by
    rw [← hentry]
    rfl
  have hzeros : (entry.drop 13).take 3 = [0, 0, 0] := by
    rw [← hentry]
    rfl
  have hpos := length_pos_iff.mpr h.nonempty
  have hshorter := h.shorter
  simp only [ordinaryEntry, pack_bind_eq_ok, demand_eq_ok, present_eq_ok]
  refine ⟨entry, hrange, (), decide_eq_true (.inr hzeros), (), decide_eq_true hstart, (), ?_,
    group.codec, ?_, (), ?_, (), ?_, (), decide_eq_true hsingle, ?_⟩
  · rw [hstart, hlength, hdecodedAt]
    exact decide_eq_true ⟨by omega, by omega, hused⟩
  · rw [hflag, hlength, hdecodedAt]
    exact entryCodec_placeable h
  · refine decide_eq_true ?_
    by_cases hordinary : header.lane = .ordinary
    · exact .inl (by simp [hordinary])
    · exact .inr (h.raw hordinary)
  · rw [hdecodedAt]
    exact decide_eq_true h.bounded
  · rw [hstart, hlength, hdecodedAt]
    rfl

theorem length_bodyBytes_cons :
    (bodyBytes (group :: groups)).length = group.bytes.length + (bodyBytes groups).length := by
  rw [bodyBytes, map_cons, flatten_cons, length_append, bodyBytes]

/-- **The ordinary directory of placeable groups is read back.** -/
theorem ordinaryLoop_entries (hheader : header.lane = lane) (hlane : lane ≠ .wholeFile)
    (hsingle : lane ≠ .singleton ∨ header.groupCount = 1)
    (hplace : ∀ group ∈ groups, Placeable lane group)
    (hentries : directoryEntries lane groups offset = .ok directory)
    (hfront : front.length = headerLen + 16 * index)
    (hused : offset + (bodyBytes groups).length = header.used) :
    ordinaryLoop (front ++ directory ++ tail) header groups.length index offset =
      .ok (viewsFrom offset groups) := by
  induction groups generalizing front directory index offset with
  | nil =>
    have hdone : offset = header.used := by simpa [bodyBytes] using hused
    simp [ordinaryLoop, viewsFrom, hdone, demand, bind, Except.bind, pure, Except.pure]
  | cons group groups ih =>
    simp only [directoryEntries, pack_bind_eq_ok] at hentries
    obtain ⟨entry, hentry, rest, hrest, hdirectory⟩ := hentries
    cases hdirectory
    obtain ⟨hoffset, hencoded, hdecoded, rfl⟩ := directoryEntry_eq_ok hlane hentry
    rw [length_bodyBytes_cons] at hused
    have hsplit : front ++ (entryBytes offset group ++ rest) ++ tail =
        front ++ entryBytes offset group ++ rest ++ tail := by
      simp only [append_assoc]
    have hrange : range? (front ++ entryBytes offset group ++ rest ++ tail)
        (headerLen + 16 * index) (headerLen + 16 * index + 16) =
        some (entryBytes offset group) := by
      rw [append_assoc _ rest]
      exact range?_append hfront.symm (by rw [hfront]; rfl)
    have hview := ordinaryEntry_placeable (hheader ▸ hplace group mem_cons_self)
      (hheader ▸ hsingle) hoffset hencoded hdecoded (by omega) hrange
    have hloop : ordinaryLoop (front ++ entryBytes offset group ++ rest ++ tail) header
        groups.length (index + 1) (offset + group.bytes.length) =
        .ok (viewsFrom (offset + group.bytes.length) groups) := by
      refine ih (fun g hg => hplace g (mem_cons_of_mem group hg)) hrest ?_ (by omega)
      rw [length_append, hfront]
      rfl
    rw [hsplit, length_cons, ordinaryLoop, hview]
    simp only [bind, Except.bind]
    rw [hloop]
    rfl

theorem compactStart_append {after : List UInt8} {n : ℕ}
    (hfront : front.length = headerLen + 4 * index) (hn : n < 2 ^ 32) :
    compactStart (front ++ le32 n ++ after) index = .ok n := by
  have hrange : range? (front ++ le32 n ++ after) (headerLen + 4 * index)
      (headerLen + 4 * (index + 1)) = some (le32 n) :=
    range?_append hfront.symm (by rw [hfront, length_le32]; omega)
  rw [compactStart, hrange]
  simp only [present, bind, Except.bind, ofLe32_le32 hn]
  rfl

theorem compactStop_entries {rest : List UInt8} {stop : ℕ}
    (hrest : directoryEntries .wholeFile groups stop = .ok rest)
    (hfront : front.length = headerLen + 4 * (index + 1))
    (hcount : index + 1 + groups.length = header.groupCount)
    (hused : stop + (bodyBytes groups).length = header.used) :
    compactStop (front ++ rest ++ tail) header index = .ok stop := by
  rw [compactStop]
  rcases groups with _ | ⟨next, groups⟩
  · rw [if_pos (by simpa using hcount)]
    exact congrArg Except.ok (by simpa [bodyBytes] using hused.symm)
  · rw [length_cons] at hcount
    rw [if_neg (by omega)]
    simp only [directoryEntries, directoryEntry, pack_bind_eq_ok, word_eq_ok] at hrest
    obtain ⟨_, ⟨hstop, rfl⟩, others, -, hvalue⟩ := hrest
    cases hvalue
    rw [← append_assoc front, append_assoc _ others]
    exact compactStart_append hfront hstop

/-- **The compact directory of placeable groups is read back.** -/
theorem wholeFileLoop_entries (hplace : ∀ group ∈ groups, Placeable .wholeFile group)
    (hentries : directoryEntries .wholeFile groups offset = .ok directory)
    (hfront : front.length = headerLen + 4 * index)
    (hcount : index + groups.length = header.groupCount)
    (hused : offset + (bodyBytes groups).length = header.used) :
    wholeFileLoop (front ++ directory ++ tail) header groups.length index offset =
      .ok (viewsFrom offset groups) := by
  induction groups generalizing front directory index offset with
  | nil => rfl
  | cons group groups ih =>
    simp only [directoryEntries, directoryEntry, pack_bind_eq_ok, word_eq_ok] at hentries
    obtain ⟨_, ⟨hoffset, rfl⟩, rest, hrest, hdirectory⟩ := hentries
    cases hdirectory
    have hgroup := hplace group mem_cons_self
    have hwide := hgroup.wide rfl
    have hdecoded := hgroup.raw_eq (hgroup.raw (by decide))
    rw [length_bodyBytes_cons] at hused
    rw [length_cons] at hcount
    have hnext : (front ++ le32 offset).length = headerLen + 4 * (index + 1) := by
      rw [length_append, hfront, length_le32]
      omega
    have hsplit : front ++ (le32 offset ++ rest) ++ tail = front ++ le32 offset ++ rest ++ tail := by
      simp only [append_assoc]
    have hstart : compactStart (front ++ le32 offset ++ rest ++ tail) index = .ok offset := by
      rw [append_assoc _ rest]
      exact compactStart_append hfront hoffset
    have hstop : compactStop (front ++ le32 offset ++ rest ++ tail) header index =
        .ok (offset + group.bytes.length) :=
      compactStop_entries hrest hnext (by omega) (by omega)
    have hview : wholeFileEntry (front ++ le32 offset ++ rest ++ tail) header index offset =
        .ok ⟨offset, offset + group.bytes.length, group.decodedLength, group.codec⟩ := by
      simp only [wholeFileEntry, pack_bind_eq_ok, demand_eq_ok]
      refine ⟨offset, hstart, (), decide_eq_true rfl, offset + group.bytes.length, hstop, (),
        decide_eq_true (by omega), (), decide_eq_true ⟨by omega, by omega⟩, ?_⟩
      rw [Nat.add_sub_cancel_left, hdecoded, hgroup.raw (by decide)]
      rfl
    have hloop : wholeFileLoop (front ++ le32 offset ++ rest ++ tail) header groups.length
        (index + 1) (offset + group.bytes.length) =
        .ok (viewsFrom (offset + group.bytes.length) groups) :=
      ih (fun g hg => hplace g (mem_cons_of_mem group hg)) hrest hnext (by omega) (by omega)
    rw [hsplit, length_cons, wholeFileLoop, hview]
    simp only [bind, Except.bind]
    rw [hloop]
    rfl

theorem visitDirectory_entries {header : PackHeader} {groups : List EncodedGroup}
    {control directory tail : List UInt8} (hcontrol : control.length = headerLen)
    (hplace : ∀ group ∈ groups, Placeable header.lane group)
    (hentries : directoryEntries header.lane groups header.bodyOffset = .ok directory)
    (hcount : groups.length = header.groupCount)
    (hsingle : header.lane ≠ .singleton ∨ header.groupCount = 1)
    (hlimit : header.used ≤ lanePackLimit header.lane)
    (hused : header.bodyOffset + (bodyBytes groups).length = header.used) :
    visitDirectory (control ++ directory ++ tail) header =
      .ok (viewsFrom header.bodyOffset groups) := by
  rw [visitDirectory, ← hcount]
  split
  · rename_i hlane
    rw [hlane] at hplace hentries
    rw [(demand_eq_ok (u := ())).mpr (decide_eq_true hlimit)]
    exact wholeFileLoop_entries hplace hentries hcontrol ((Nat.zero_add _).trans hcount) hused
  · rename_i hlane
    exact ordinaryLoop_entries rfl hlane hsingle hplace hentries hcontrol hused

/-- **The directory of an assembled pack.** -/
theorem directoryGroupViews_assemble (h : assemble lane groups = .ok pack)
    (hplace : ∀ group ∈ groups, Placeable lane group) :
    directoryGroupViews pack
        ⟨lane, groups.length, pack.length, sizedBodyOffset lane groups.length⟩ =
      .ok (viewsFrom (sizedBodyOffset lane groups.length) groups) := by
  obtain ⟨hne, hcount, hlimit, entries, hentries, hwidth, hpack⟩ := assemble_eq_ok h
  have hpos : 1 ≤ groups.length := length_pos_iff.mpr hne
  generalize hcontrol : packMagic ++ le32 (versionOf lane).number ++ le32 groups.length ++
    le32 pack.length ++ [0, 0, 0, 0] = control at hpack
  have hfront : control.length = headerLen := by
    rw [← hcontrol]
    rfl
  have hlength : pack.length = headerLen + entries.length + (bodyBytes groups).length := by
    rw [hpack, length_append, length_append, hfront]
  have hsingle : lane ≠ .singleton ∨ groups.length = 1 := by
    by_cases hone : lane = .singleton
    · subst hone
      exact .inr (le_antisymm hcount hpos)
    · exact .inl hone
  have hvisit := @visitDirectory_entries
    ⟨lane, groups.length, pack.length, sizedBodyOffset lane groups.length⟩ groups control entries
    (bodyBytes groups) hfront hplace hentries rfl hsingle hlimit (by dsimp only; omega)
  rw [← hpack] at hvisit
  rw [directoryGroupViews,
    (demand_eq_ok (u := ())).mpr (decide_eq_true ⟨by dsimp only; omega, le_rfl⟩)]
  exact hvisit

/-! ## Bodies -/

theorem split_of_getElem? {α : Type} {l : List α} {i : ℕ} {a : α} (h : l[i]? = some a) :
    ∃ before after, l = before ++ a :: after ∧ before.length = i := by
  obtain ⟨hi, rfl⟩ := List.getElem?_eq_some_iff.mp h
  refine ⟨l.take i, l.drop (i + 1), ?_, length_take_of_le hi.le⟩
  rw [cons_getElem_drop_succ, take_append_drop]

theorem viewsFrom_append :
    viewsFrom offset (before ++ after) =
      viewsFrom offset before ++ viewsFrom (offset + (bodyBytes before).length) after := by
  induction before generalizing offset with
  | nil => rfl
  | cons group before ih =>
    rw [cons_append, viewsFrom, ih, viewsFrom, length_bodyBytes_cons, cons_append,
      Nat.add_assoc]

theorem length_viewsFrom {offset : ℕ} {groups : List EncodedGroup} :
    (viewsFrom offset groups).length = groups.length := by
  induction groups generalizing offset with
  | nil => rfl
  | cons group groups ih => rw [viewsFrom, length_cons, ih, length_cons]

theorem viewsFrom_split :
    (viewsFrom offset (before ++ group :: after))[before.length]? =
      some ⟨offset + (bodyBytes before).length,
        offset + (bodyBytes before).length + group.bytes.length, group.decodedLength,
        group.codec⟩ := by
  rw [viewsFrom_append, ← @length_viewsFrom offset before, getElem?_append_right le_rfl,
    Nat.sub_self, viewsFrom, getElem?_cons_zero]

/-- **A group's view holds its bytes.** -/
theorem range?_view (h : assemble lane (before ++ group :: after) = .ok pack) :
    range? pack
        (sizedBodyOffset lane (before ++ group :: after).length + (bodyBytes before).length)
        (sizedBodyOffset lane (before ++ group :: after).length + (bodyBytes before).length +
          group.bytes.length) = some group.bytes := by
  obtain ⟨-, -, -, entries, -, hwidth, hpack⟩ := assemble_eq_ok h
  generalize hcontrol : packMagic ++ le32 (versionOf lane).number ++
    le32 (before ++ group :: after).length ++ le32 pack.length ++ [0, 0, 0, 0] = control at hpack
  have hfront : (control ++ entries ++ bodyBytes before).length =
      sizedBodyOffset lane (before ++ group :: after).length + (bodyBytes before).length := by
    rw [length_append, length_append, ← hwidth, ← hcontrol]
    rfl
  have hsplit : pack = control ++ entries ++ bodyBytes before ++ group.bytes ++
      bodyBytes after := by
    rw [hpack, bodyBytes, map_append, flatten_append, map_cons, flatten_cons]
    simp only [bodyBytes, append_assoc]
  rw [hsplit]
  exact range?_append hfront.symm (by rw [hfront])

end Pack

end LayerFs
