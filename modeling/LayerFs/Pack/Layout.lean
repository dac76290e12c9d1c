import LayerFs.Save.Types
import LayerFs.Support.LittleEndian

/-!
# Pack grammars

How a pack is read (`layerfs-storage/src/pack/layout.rs`): a control area, a directory of groups and
the group bodies, and inside a group body a directory of records. A lane is a framing; a version
names the lane and the width of the directory.

* `directoryGroupViews_tiles` — **every directory the parser accepts tiles the bodies**.
* `recordRange_within` — **a record lies inside its group**.
-/

namespace LayerFs

variable {bytes ends : List UInt8} {index left offset ordinal start stop : ℕ} {found : ℕ × ℕ}

namespace Pack

open Save (PackLane)

/-! ## Errors -/

/-- The failures of the pack functions. -/
inductive PackError where
  | integrity (what : String)
  | unsupportedPolicy (field : String)
  | capacityExceeded (what : String) (limit actual : ℕ)
  deriving DecidableEq

abbrev PackResult (α : Type) := Except PackError α

section Result

variable {α β : Type}

theorem pack_bind_eq_ok {x : PackResult α} {f : α → PackResult β} {b : β} :
    x >>= f = .ok b ↔ ∃ a, x = .ok a ∧ f a = .ok b := by
  cases x with
  | error e => simp [bind, Except.bind]
  | ok a => simp [bind, Except.bind]

/-- Refuses with `e` unless the check holds. -/
def demand (check : Bool) (e : PackError) : PackResult Unit :=
  if check then .ok () else .error e

variable {e : PackError}

@[simp] theorem demand_eq_ok {check : Bool} {u : Unit} : demand check e = .ok u ↔ check = true := by
  cases check <;> simp [demand]

/-- The value of an option, or the refusal `e`. -/
def present (o : Option α) (e : PackError) : PackResult α :=
  match o with
  | some a => .ok a
  | none => .error e

@[simp] theorem present_eq_ok {o : Option α} {a : α} : present o e = .ok a ↔ o = some a := by
  cases o <;> simp [present]

end Result

/-! ## Widths and limits -/

def packMagic : List UInt8 := [0x4C, 0x46, 0x50, 0x41, 0x43, 0x4B, 0, 0]

def headerLen : ℕ := 24

/-- Framing bytes the compact whole-file assembly drops from each record. -/
def wholeFileCompactDrop : ℕ := 8

def groupLimit : ℕ := 65536

def groupCountLimit : ℕ := 256

def tightGroups : ℕ := 16

def recordCountLimit : ℕ := 8191

def packLimit : ℕ := 256 * 1024

/-- Largest assembled singleton pack: one maximum canonical record plus framing. -/
def singletonPackLimit : ℕ := 16 * 1024 * 1024 + 4096

def directoryEntryLen : PackLane → ℕ
  | .wholeFile => 4
  | _ => 16

def lanePackLimit : PackLane → ℕ
  | .singleton => singletonPackLimit
  | _ => packLimit

def bodyLimit : PackLane → ℕ
  | .singleton => singletonPackLimit
  | .wholeFile => packLimit
  | _ => groupLimit

/-! ## Versions -/

/-- The framing versions the reader implements. -/
inductive Version where
  | ordinary
  | ordinaryTight
  | ordinarySized
  | chunk
  | chunkStored
  | chunkTight
  | chunkSized
  | wholeFile
  | wholeFileStored
  | wholeFileGrouped
  | wholeFileTight
  | wholeFileSized
  | singleton
  | singletonStored
  deriving DecidableEq

namespace Version

def number : Version → ℕ
  | ordinary => 9
  | chunk => 10
  | wholeFile => 11
  | singleton => 13
  | wholeFileStored => 14
  | chunkStored => 15
  | singletonStored => 16
  | wholeFileGrouped => 17
  | wholeFileTight => 18
  | ordinaryTight => 19
  | chunkTight => 20
  | wholeFileSized => 23
  | ordinarySized => 24
  | chunkSized => 25

def all : List Version :=
  [ordinary, ordinaryTight, ordinarySized, chunk, chunkStored, chunkTight, chunkSized, wholeFile,
    wholeFileStored, wholeFileGrouped, wholeFileTight, wholeFileSized, singleton, singletonStored]

def ofNumber (n : ℕ) : Option Version := all.find? fun version => version.number = n

def lane : Version → PackLane
  | ordinary | ordinaryTight | ordinarySized => .ordinary
  | chunk | chunkStored | chunkTight | chunkSized => .chunk
  | wholeFile | wholeFileStored | wholeFileGrouped | wholeFileTight | wholeFileSized => .wholeFile
  | singleton | singletonStored => .singleton

def sized : Version → Bool
  | ordinarySized | chunkSized | wholeFileSized => true
  | _ => false

/-- Directory slots a version reserves, or may use when it is sized. -/
def slots : Version → ℕ
  | ordinaryTight | chunkTight | wholeFileTight => tightGroups
  | singleton | singletonStored => 1
  | ordinarySized | chunkSized | wholeFileSized => tightGroups
  | _ => groupCountLimit

end Version

def versionOf : PackLane → Version
  | .ordinary => .ordinarySized
  | .chunk => .chunkSized
  | .wholeFile => .wholeFileSized
  | .singleton => .singletonStored

/-! ## The header -/

/-- Parsed pack control area. -/
structure PackHeader where
  lane : PackLane
  groupCount : ℕ
  /-- assembled length the control area declares -/
  used : ℕ
  bodyOffset : ℕ
  deriving DecidableEq

def wordAt (bytes : List UInt8) (offset : ℕ) : ℕ := ofLe32 ((bytes.drop offset).take 4)

/-- `parse_control_header`. The lane is read off the version, so the source's last check, that a chunk
pack has a chunk version, never refuses. -/
def parseControlHeader (bytes : List UInt8) (totalLength : ℕ) : PackResult PackHeader := do
  let header ← present (range? bytes 0 headerLen) (.integrity "pack header")
  demand (header.take 8 = packMagic) (.integrity "pack magic")
  let version ← present (Version.ofNumber (wordAt header 8))
    (.unsupportedPolicy "pack framing version")
  let groupCount := wordAt header 12
  let countLimit := if version.lane = .singleton then groupCountLimit else version.slots
  demand (1 ≤ groupCount ∧ groupCount ≤ countLimit) (.integrity "pack group count")
  let slots := if version.sized then groupCount else version.slots
  demand ((header.drop 20).take 4 = [0, 0, 0, 0]) (.integrity "pack reserved field")
  let used := wordAt header 16
  demand (used = totalLength ∧ bytes.length ≤ totalLength) (.integrity "pack length")
  let bodyOffset := headerLen + directoryEntryLen version.lane * slots
  demand (bodyOffset + 1 ≤ used) (.integrity "pack directory width")
  demand (totalLength ≤ lanePackLimit version.lane) (.integrity "pack length")
  demand (version.lane ≠ .singleton ∨ groupCount = 1) (.integrity "singleton pack group count")
  return ⟨version.lane, groupCount, used, bodyOffset⟩

/-- `parse_directory_header`. -/
def parseDirectoryHeader (bytes : List UInt8) (totalLength : ℕ) : PackResult PackHeader := do
  let header ← parseControlHeader bytes totalLength
  demand (header.bodyOffset ≤ bytes.length) (.integrity "pack directory width")
  return header

/-- `parse_header`. -/
def parseHeader (bytes : List UInt8) : PackResult PackHeader :=
  parseDirectoryHeader bytes bytes.length

/-! ## The directory -/

/-- Group body codec recorded in the ordinary directory entry. -/
inductive GroupCodec where
  | raw
  | zstandard
  deriving DecidableEq

/-- Location of one group body inside a pack. -/
structure GroupView where
  start : ℕ
  stop : ℕ
  decodedLength : ℕ
  codec : GroupCodec
  deriving DecidableEq

def entryCodec (lane : PackLane) (flag : UInt8) (encoded decoded : ℕ) : Option GroupCodec :=
  if flag = 0 ∧ encoded = decoded then some .raw
  else if flag = 1 ∧ encoded ≤ decoded ∧ decoded ≤ bodyLimit lane then some .zstandard
  else none

/-- One entry of `ordinary_directory`, whose body must start at an offset. -/
def ordinaryEntry (bytes : List UInt8) (header : PackHeader) (index offset : ℕ) :
    PackResult GroupView := do
  let place := headerLen + 16 * index
  let entry ← present (range? bytes place (place + 16)) (.integrity "group directory")
  let start := wordAt entry 0
  let encoded := wordAt entry 4
  let decoded := wordAt entry 8
  demand ((entry.drop 12).take 4 = [0, 0, 0, 0] ∨ (entry.drop 13).take 3 = [0, 0, 0])
    (.integrity "group directory flags")
  demand (start = offset) (.integrity "group directory continuity")
  let stop := start + encoded
  demand (encoded ≠ 0 ∧ decoded ≠ 0 ∧ stop ≤ header.used) (.integrity "group extent")
  let codec ← present (entryCodec header.lane ((entry.drop 12).headD 0) encoded decoded)
    (.integrity "group codec")
  demand ((header.lane ≠ .chunk ∧ header.lane ≠ .singleton) ∨ codec = .raw)
    (.integrity "lane group codec")
  demand (decoded ≤ bodyLimit header.lane) (.integrity "group decoded length")
  demand (header.lane ≠ .singleton ∨ header.groupCount = 1)
    (.integrity "singleton pack group count")
  return ⟨start, stop, decoded, codec⟩

/-- The loop of `ordinary_directory` over the entries left, from an index and the end of the body
before it. -/
def ordinaryLoop (bytes : List UInt8) (header : PackHeader) :
    ℕ → ℕ → ℕ → PackResult (List GroupView)
  | 0, _, offset => do
    demand (offset = header.used) (.integrity "pack trailing bytes")
    return []
  | left + 1, index, offset => do
    let view ← ordinaryEntry bytes header index offset
    let rest ← ordinaryLoop bytes header left (index + 1) view.stop
    return view :: rest

def compactStart (bytes : List UInt8) (index : ℕ) : PackResult ℕ := do
  let entry ← present (range? bytes (headerLen + 4 * index) (headerLen + 4 * (index + 1)))
    (.integrity "compact directory")
  return ofLe32 entry

/-- Where a compact body ends: where the next starts, or with the pack. -/
def compactStop (bytes : List UInt8) (header : PackHeader) (index : ℕ) : PackResult ℕ :=
  if index + 1 = header.groupCount then .ok header.used else compactStart bytes (index + 1)

/-- One entry of `whole_file_directory`, whose body must start at an offset. -/
def wholeFileEntry (bytes : List UInt8) (header : PackHeader) (index start : ℕ) :
    PackResult GroupView := do
  let declared ← compactStart bytes index
  demand (declared = start) (.integrity "compact directory continuity")
  let stop ← compactStop bytes header index
  demand (start ≤ stop) (.integrity "compact group range")
  demand (2 ≤ stop - start ∧ stop ≤ header.used) (.integrity "compact group extent")
  return ⟨start, stop, stop - start, .raw⟩

/-- The loop of `whole_file_directory`. -/
def wholeFileLoop (bytes : List UInt8) (header : PackHeader) :
    ℕ → ℕ → ℕ → PackResult (List GroupView)
  | 0, _, _ => return []
  | left + 1, index, start => do
    let view ← wholeFileEntry bytes header index start
    let rest ← wholeFileLoop bytes header left (index + 1) view.stop
    return view :: rest

/-- `visit_directory`: the views in order. -/
def visitDirectory (bytes : List UInt8) (header : PackHeader) : PackResult (List GroupView) :=
  match header.lane with
  | .wholeFile => do
    demand (header.used ≤ lanePackLimit header.lane) (.integrity "compact pack length")
    wholeFileLoop bytes header header.groupCount 0 header.bodyOffset
  | _ => ordinaryLoop bytes header header.groupCount 0 header.bodyOffset

/-- `directory_group_views`. -/
def directoryGroupViews (bytes : List UInt8) (header : PackHeader) :
    PackResult (List GroupView) := do
  demand (header.bodyOffset ≤ bytes.length ∧ bytes.length ≤ header.used)
    (.integrity "pack directory width")
  visitDirectory bytes header

/-- `directory_group_view`. -/
def directoryGroupView (bytes : List UInt8) (header : PackHeader) (group : ℕ) :
    PackResult GroupView := do
  demand (header.bodyOffset ≤ bytes.length ∧ bytes.length ≤ header.used)
    (.integrity "pack directory width")
  demand (group < header.groupCount) (.integrity "group ordinal")
  let views ← visitDirectory bytes header
  present views[group]? (.integrity "group ordinal")

/-- `group_view`. -/
def groupView (bytes : List UInt8) (header : PackHeader) (group : ℕ) : PackResult GroupView := do
  demand (bytes.length = header.used) (.integrity "pack length")
  directoryGroupView bytes header group

/-! ## Records -/

/-- The loop of `record_range` over the ends left, from an index, the end before it and the range
selected so far. -/
def recordLoop (ends : List UInt8) (areaStart areaLength ordinal : ℕ) :
    ℕ → ℕ → ℕ → ℕ × ℕ → PackResult (ℕ × ℕ)
  | 0, _, previous, selected => do
    demand (previous = areaLength) (.integrity "record area length")
    return selected
  | left + 1, index, previous, selected => do
    let stop := wordAt ends (4 * index)
    demand (previous < stop ∧ stop ≤ areaLength) (.integrity "record end ordering")
    recordLoop ends areaStart areaLength ordinal left (index + 1) stop
      (if index = ordinal then (areaStart + previous, areaStart + stop) else selected)

/-- `record_range`. -/
def recordRange (count : ℕ) (ends : List UInt8) (groupLength ordinal : ℕ) : PackResult (ℕ × ℕ) := do
  demand ((1 ≤ count ∧ count ≤ recordCountLimit) ∧ ordinal < count ∧
    groupLength ≤ singletonPackLimit ∧ ends.length = 4 * count)
    (.integrity "group record directory")
  let areaStart := 4 + ends.length
  demand (areaStart ≤ groupLength) (.integrity "group record area")
  recordLoop ends areaStart (groupLength - areaStart) ordinal count 0 0 (0, 0)

/-- `framed_record`. -/
def framedRecord (group : List UInt8) (ordinal : ℕ) : PackResult (List UInt8) := do
  demand (4 ≤ group.length) (.integrity "group framing")
  let count := wordAt group 0
  let ends ← present (range? group 4 (4 + 4 * count)) (.integrity "group record directory")
  let found ← recordRange count ends group.length ordinal
  present (range? group found.1 found.2) (.integrity "record range")

/-! ## Tiling -/

/-- Nonempty views that follow one another from one offset to another. -/
def Tiles : ℕ → List GroupView → ℕ → Prop
  | start, [], stop => start = stop
  | start, view :: views, stop => view.start = start ∧ view.start < view.stop ∧
      Tiles view.stop views stop

variable {views : List GroupView}

theorem Tiles.bounds (h : Tiles start views stop) :
    start ≤ stop ∧ ∀ view ∈ views, start ≤ view.start ∧ view.start < view.stop ∧
      view.stop ≤ stop := by
  induction views generalizing start with
  | nil => exact ⟨Nat.le_of_eq h, by simp⟩
  | cons view views ih =>
    obtain ⟨rfl, hlt, hrest⟩ := h
    obtain ⟨hle, hviews⟩ := ih hrest
    refine ⟨by omega, List.forall_mem_cons.mpr ⟨⟨le_rfl, hlt, hle⟩, fun other hother => ?_⟩⟩
    obtain ⟨hstart, hbetween, hstop⟩ := hviews other hother
    exact ⟨by omega, hbetween, hstop⟩

theorem Tiles.disjoint (h : Tiles start views stop) :
    views.Pairwise fun a b => a.stop ≤ b.start := by
  induction views generalizing start with
  | nil => exact .nil
  | cons view views ih =>
    obtain ⟨-, -, hrest⟩ := h
    exact List.pairwise_cons.mpr ⟨fun other hother => (hrest.bounds.2 other hother).1, ih hrest⟩

variable {view : GroupView} {header : PackHeader}

theorem ordinaryEntry_eq_ok (h : ordinaryEntry bytes header index offset = .ok view) :
    view.start = offset ∧ view.start < view.stop := by
  simp only [ordinaryEntry, pack_bind_eq_ok, demand_eq_ok] at h
  obtain ⟨entry, -, -, -, -, hstart, -, hextent, codec, -, -, -, -, -, -, -, hview⟩ := h
  cases hview
  have hpos := (of_decide_eq_true hextent).1
  exact ⟨of_decide_eq_true hstart, by dsimp only; omega⟩

theorem ordinaryLoop_tiles (h : ordinaryLoop bytes header left index offset = .ok views) :
    Tiles offset views header.used ∧ views.length = left := by
  induction left generalizing index offset views with
  | zero =>
    simp only [ordinaryLoop, pack_bind_eq_ok, demand_eq_ok] at h
    obtain ⟨-, hoffset, hviews⟩ := h
    cases hviews
    have hoffset := of_decide_eq_true hoffset
    exact ⟨hoffset, rfl⟩
  | succ left ih =>
    simp only [ordinaryLoop, pack_bind_eq_ok] at h
    obtain ⟨view, hview, rest, hrest, hviews⟩ := h
    cases hviews
    obtain ⟨hstart, hlt⟩ := ordinaryEntry_eq_ok hview
    obtain ⟨htiles, hlength⟩ := ih hrest
    exact ⟨⟨hstart, hlt, htiles⟩, by rw [List.length_cons, hlength]⟩

theorem wholeFileEntry_eq_ok (h : wholeFileEntry bytes header index start = .ok view) :
    view.start = start ∧ view.start < view.stop ∧
      (index + 1 = header.groupCount → view.stop = header.used) := by
  simp only [wholeFileEntry, pack_bind_eq_ok, demand_eq_ok] at h
  obtain ⟨declared, -, -, -, stop, hstop, -, -, -, hextent, hview⟩ := h
  cases hview
  have hsize := (of_decide_eq_true hextent).1
  refine ⟨rfl, by dsimp only; omega, fun hlast => ?_⟩
  rw [compactStop, if_pos hlast] at hstop
  exact (Except.ok.inj hstop).symm

theorem wholeFileLoop_tiles (h : wholeFileLoop bytes header left index start = .ok views)
    (hcount : index + left = header.groupCount) (hdone : left = 0 → start = header.used) :
    Tiles start views header.used ∧ views.length = left := by
  induction left generalizing index start views with
  | zero =>
    cases h
    exact ⟨hdone rfl, rfl⟩
  | succ left ih =>
    simp only [wholeFileLoop, pack_bind_eq_ok] at h
    obtain ⟨view, hview, rest, hrest, hviews⟩ := h
    cases hviews
    obtain ⟨hstart, hlt, hlast⟩ := wholeFileEntry_eq_ok hview
    obtain ⟨htiles, hlength⟩ := ih hrest (by omega) fun hleft => hlast (by omega)
    exact ⟨⟨hstart, hlt, htiles⟩, by rw [List.length_cons, hlength]⟩

theorem parseHeader_eq_ok (h : parseHeader bytes = .ok header) :
    0 < header.groupCount ∧ header.used = bytes.length ∧ header.bodyOffset < header.used := by
  simp only [parseHeader, parseDirectoryHeader, parseControlHeader, pack_bind_eq_ok,
    demand_eq_ok] at h
  obtain ⟨_, ⟨control, -, -, -, version, -, -, hcount, -, -, -, hused, -, hbody, -, -, -, -, hvalue⟩,
    -, -, hheader⟩ := h
  cases hheader
  cases hvalue
  have hcount := of_decide_eq_true hcount
  have hused := of_decide_eq_true hused
  have hbody := of_decide_eq_true hbody
  exact ⟨hcount.1, hused.1, hbody⟩

/-- **Every directory the parser accepts tiles the bodies.** -/
theorem directoryGroupViews_tiles (hheader : parseHeader bytes = .ok header)
    (hviews : directoryGroupViews bytes header = .ok views) :
    Tiles header.bodyOffset views header.used ∧ views.length = header.groupCount := by
  simp only [directoryGroupViews, pack_bind_eq_ok, demand_eq_ok] at hviews
  obtain ⟨-, -, hvisit⟩ := hviews
  obtain ⟨hpos, -⟩ := parseHeader_eq_ok hheader
  rw [visitDirectory] at hvisit
  split at hvisit
  · simp only [pack_bind_eq_ok] at hvisit
    obtain ⟨-, -, hloop⟩ := hvisit
    exact wholeFileLoop_tiles hloop (Nat.zero_add _) fun hzero => by omega
  · exact ordinaryLoop_tiles hvisit

/-! ## Records inside their group -/

theorem recordLoop_within {areaStart areaLength previous : ℕ} {selected : ℕ × ℕ}
    (h : recordLoop ends areaStart areaLength ordinal left index previous selected = .ok found)
    (hselected : ordinal < index →
      areaStart ≤ selected.1 ∧ selected.1 < selected.2 ∧ selected.2 ≤ areaStart + areaLength)
    (hordinal : ordinal < index + left) :
    areaStart ≤ found.1 ∧ found.1 < found.2 ∧ found.2 ≤ areaStart + areaLength := by
  induction left generalizing index previous selected with
  | zero =>
    simp only [recordLoop, pack_bind_eq_ok] at h
    obtain ⟨-, -, hfound⟩ := h
    cases hfound
    exact hselected hordinal
  | succ left ih =>
    simp only [recordLoop, pack_bind_eq_ok, demand_eq_ok] at h
    obtain ⟨-, hends, hrest⟩ := h
    have hends := of_decide_eq_true hends
    refine ih hrest (fun hlt => ?_) (by omega)
    by_cases hindex : index = ordinal
    · rw [if_pos hindex]
      exact ⟨by dsimp only; omega, by dsimp only; omega, by dsimp only; omega⟩
    · rw [if_neg hindex]
      exact hselected (by omega)

/-- **A record lies inside its group**, after the record directory. -/
theorem recordRange_within {count groupLength : ℕ}
    (h : recordRange count ends groupLength ordinal = .ok found) :
    4 + 4 * count ≤ found.1 ∧ found.1 < found.2 ∧ found.2 ≤ groupLength := by
  simp only [recordRange, pack_bind_eq_ok, demand_eq_ok] at h
  obtain ⟨-, hdirectory, -, harea, hloop⟩ := h
  obtain ⟨-, hordinal, -, hlength⟩ := of_decide_eq_true hdirectory
  have harea := of_decide_eq_true harea
  obtain ⟨hstart, hlt, hstop⟩ := recordLoop_within hloop (by omega) (by omega)
  exact ⟨by omega, hlt, by omega⟩

theorem framedRecord_eq_ok {group record : List UInt8} (h : framedRecord group ordinal = .ok record)
    :
    ∃ start stop, start < stop ∧ stop ≤ group.length ∧ range? group start stop = some record := by
  simp only [framedRecord, pack_bind_eq_ok, present_eq_ok] at h
  obtain ⟨-, -, ends, -, found, hfound, hrecord⟩ := h
  obtain ⟨-, hlt, hstop⟩ := recordRange_within hfound
  exact ⟨found.1, found.2, hlt, hstop, hrecord⟩

end Pack

end LayerFs
