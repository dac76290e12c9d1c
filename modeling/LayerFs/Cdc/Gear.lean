import LayerFs.Mapping.Types

/-!
# The frozen chunker

Two-byte rolling GEAR content-defined chunking (`file/cdc/gear.rs`): a chunk is at least
`minimumChunkBytes` long, the hash of the bytes behind that decides its end pair by pair, and
`maximumChunkBytes` forces one.

* `consume_eq_feed` — **the windows do not matter**: consuming a window is feeding its bytes, so the
  chunks of an input depend only on its bytes.
-/

namespace LayerFs

open List

variable {bytes : List UInt8} {first second : UInt8}

def minimumChunkBytes : ℕ := 8192
def targetChunkBytes : ℕ := 16384

def profileSeed : UInt64 := 0

/-- The two masks of a region: for the first byte of a pair, and for the second. -/
structure Masks where
  shifted : UInt64
  plain : UInt64

/-- `SHIFTED_SMALL_MASK` and `SMALL_MASK`. -/
def smallMasks : Masks := ⟨0x0001b20606a6e000, 0x0000d90303537000⟩
/-- `SHIFTED_LARGE_MASK` and `LARGE_MASK`. -/
def largeMasks : Masks := ⟨0x0001b20206a60000, 0x0000d90103530000⟩

def gearTable : List UInt64 := [
  0x3b5d3c7d207e37dc, 0x784d68ba91123086, 0xcd52880f882e7298, 0xeacf8e4e19fdcca7,
  0xc31f385dfbd1632b, 0x1d5f27001e25abe6, 0x83130bde3c9ad991, 0xc4b225676e9b7649,
  0xaa329b29e08eb499, 0xb67fcbd21e577d58, 0x0027baaada2acf6b, 0xe3ef2d5ac73c2226,
  0x0890f24d6ed312b7, 0xa809e036851d7c7e, 0xf0a6fe5e0013d81b, 0x1d026304452cec14,
  0x03864632648e248f, 0xcdaacf3dcd92b9b4, 0xf5e012e63c187856, 0x8862f9d3821c00b6,
  0xa82f7338750f6f8a, 0x1e583dc6c1cb0b6f, 0x7a3145b69743a7f1, 0xabb20fee404807eb,
  0xb14b3cfe07b83a5d, 0xb9dc27898adb9a0f, 0x3703f5e91baa62be, 0xcf0bb866815f7d98,
  0x3d9867c41ea9dcd3, 0x1be1fa65442bf22c, 0x14300da4c55631d9, 0xe698e9cbc6545c99,
  0x4763107ec64e92a5, 0xc65821fc65696a24, 0x76196c064822f0b7, 0x485be841f3525e01,
  0xf652bc9c85974ff5, 0xcad8352face9e3e9, 0x2a6ed1dceb35e98e, 0xc6f483badc11680f,
  0x3cfd8c17e9cf12f1, 0x89b83c5e2ea56471, 0xae665cfd24e392a9, 0xec33c4e504cb8915,
  0x3fb9b15fc9fe7451, 0xd7fd1fd1945f2195, 0x31ade0853443efd8, 0x255efc9863e1e2d2,
  0x10eab6008d5642cf, 0x46f04863257ac804, 0xa52dc42a789a27d3, 0xdaaadf9ce77af565,
  0x6b479cd53d87febb, 0x6309e2d3f93db72f, 0xc5738ffbaa1ff9d6, 0x6bd57f3f25af7968,
  0x67605486d90d0a4a, 0xe14d0b9663bfbdae, 0xb7bbd8d816eb0414, 0xdef8a4f16b35a116,
  0xe7932d85aaaffed6, 0x08161cbae90cfd48, 0x855507beb294f08b, 0x91234ea6ffd399b2,
  0xad70cf4b2435f302, 0xd289a97565bc2d27, 0x8e558437ffca99de, 0x96d2704b7115c040,
  0x0889bbcdfc660e41, 0x5e0d4e67dc92128d, 0x72a9f8917063ed97, 0x438b69d409e016e3,
  0xdf4fed8a5d8a4397, 0x00f41dcf41d403f7, 0x4814eb038e52603f, 0x9dafbacc58e2d651,
  0xfe2f458e4be170af, 0x4457ec414df6a940, 0x06e62f1451123314, 0xbd1014d173ba92cc,
  0xdef318e25ed57760, 0x9fea0de9dfca8525, 0x459de1e76c20624b, 0xaeec189617e2d666,
  0x126a2c06ab5a83cb, 0xb1321532360f6132, 0x65421503dbb40123, 0x2d67c287ea089ab3,
  0x6c93bff5a56bd6b6, 0x4ffb2036cab6d98d, 0xce7b785b1be7ad4f, 0xedb42ef6189fd163,
  0xdc905288703988f6, 0x365f9c1d2c691884, 0xc640583680d99bfe, 0x3cd4624c07593ec6,
  0x7f1ea8d85d7c5805, 0x014842d480b57149, 0x0b649bcb5a828688, 0xbcd5708ed79b18f0,
  0xe987c862fbd2f2f0, 0x982731671f0cd82c, 0xbaf13e8b16d8c063, 0x8ea3109cbd951bba,
  0xd141045bfb385cad, 0x2acbc1a0af1f7d30, 0xe6444d89df03bfdf, 0xa18cc771b8188ff9,
  0x9834429db01c39bb, 0x214add07fe086a1f, 0x8f07c19b1f6b3ff9, 0x56a297b1bf4ffe55,
  0x94d558e493c54fc7, 0x40bfc24c764552cb, 0x931a706f8a8520cb, 0x32229d322935bd52,
  0x2560d0f5dc4fefaf, 0x9dbcc48355969bb6, 0x0fd81c3985c0b56a, 0xe03817e1560f2bda,
  0xc1bb4f81d892b2d5, 0xb0c4864f4e28d2d7, 0x3ecc49f9d9d6c263, 0x51307e99b52ba65e,
  0x8af2b688da84a752, 0xf5d72523b91b20b6, 0x6d95ff1ff4634806, 0x562f21555458339a,
  0xc0ce47f889336346, 0x487823e5089b40d8, 0xe4727c7ebc6d9592, 0x5a8f7277e94970ba,
  0xfca2f406b1c8bb50, 0x5b1f8a95f1791070, 0xd304af9fc9028605, 0x5440ab7fc930e748,
  0x312d25fbca2ab5a1, 0x10f4a4b234a4d575, 0x90301d55047e7473, 0x3b6372886c61591e,
  0x293402b77c444e06, 0x451f34a4d3e97dd7, 0x3158d814d81bc57b, 0x034942425b9bda69,
  0xe2032ff9e532d9bb, 0x62ae066b8b2179e5, 0x9545e10c2f8d71d8, 0x7ff7483eb2d23fc0,
  0x00945fcebdc98d86, 0x8764bbbe99b26ca2, 0x1b1ec62284c0bfc3, 0x58e0fcc4f0aa362b,
  0x5f4abefa878d458d, 0xfd74ac2f9607c519, 0xa4e3fb37df8cbfa9, 0xbf697e43cac574e5,
  0x86f14a3f68f4cd53, 0x24a23d076f1ce522, 0xe725cd8048868cc8, 0xbf3c729eb2464362,
  0xd8f6cd57b3cc1ed8, 0x6329e52425541577, 0x62aa688ad5ae1ac0, 0x0a242566269bf845,
  0x168b1a4753aca74b, 0xf789afefff2e7e3c, 0x6c3362093b6fccdb, 0x4ce8f50bd28c09b2,
  0x006a2db95ae8aa93, 0x975b0d623c3d1a8c, 0x18605d3935338c5b, 0x5bb6f6136cad3c71,
  0x0f53a20701f8d8a6, 0xab8c5ad2e7e93c67, 0x40b5ac5127acaa29, 0x8c7bf63c2075895f,
  0x78bd9f7e014a805c, 0xb2c9e9f4f9c8c032, 0xefd6049827eb91f3, 0x2be459f482c16fbd,
  0xd92ce0c5745aaa8c, 0x0aaa8fb298d965b9, 0x2b37f92c6c803b15, 0x8c54a5e94e0f0e78,
  0x95f9b6e90c0a3032, 0xe7939faa436c7874, 0xd16bfe8f6a8a40c9, 0x44982b86263fd2fa,
  0xe285fb39f984e583, 0x779a8df72d7619d3, 0xf2d79a8de8d5dd1e, 0xd1037354d66684e2,
  0x004c82a4e668a8e5, 0x31d40a7668b044e6, 0xd70578538bd02c11, 0xdb45431078c5f482,
  0x977121bb7f6a51ad, 0x73d5ccbd34eff8dd, 0xe437a07d356e17cd, 0x47b2782043c95627,
  0x9fb251413e41d49a, 0xccd70b60652513d3, 0x1c95b31e8a1b49b2, 0xcae73dfd1bcb4c1b,
  0x34d98331b1f5b70f, 0x784e39f22338d92f, 0x18613d4a064df420, 0xf1d8dae25f0bcebe,
  0x33f77c15ae855efc, 0x3c88b3b912eb109c, 0x956a2ec96bafeea5, 0x1aa005b5e0ad0e87,
  0x5500d70527c4bb8e, 0xe36c57196421cc44, 0x13c4d286cc36ee39, 0x5654a23d818b2a81,
  0x77b1dc13d161abdc, 0x734f44de5f8d5eb5, 0x60717e174a6c89a2, 0xd47d9649266a211e,
  0x5b13a4322bb69e90, 0xf7669609f8b5fc3c, 0x21e6ac55bedcdac9, 0x9b56b62b61166dea,
  0xf48f66b939797e9c, 0x35f332f9c0e6ae9a, 0xcc733f6a9a878db0, 0x3da161e41cc108c2,
  0xb7d74ae535914d51, 0x4d493b0b11d36469, 0xce264d1dfba9741a, 0xa9d1f2dc7436dc06,
  0x70738016604c2a27, 0x231d36e96e93f3d5, 0x7666881197838d19, 0x4a2a83090aaad40c,
  0xf1e761591668b35d, 0x7363236497f730a7, 0x301080e37379dd4d, 0x502dea2971827042,
  0xc2c5eb858f32625f, 0x786afb9edfafbdff, 0xdaee0d868490b2a4, 0x617366b3268609f6,
  0xae0e35a0fe46173e, 0xd1a07de93e824f11, 0x079b8b115ea4cca8, 0x93a99274558faebb,
  0xfb1e6e22e08a03b3, 0xea635fdba3698dd0, 0xcf53659328503a5c, 0xcde3b31e6fd5d780,
  0x8e3e4221d3614413, 0xef14d0d86bf1a22c, 0xe1d830d3f16c5ddb, 0xaabd2b2a451504e1]

def gear (byte : UInt8) : UInt64 := gearTable.getD byte.toNat 0

def rollFirst (hash : UInt64) (byte : UInt8) : UInt64 := (hash <<< 2) + (gear byte <<< 1)

def rollSecond (hash : UInt64) (byte : UInt8) : UInt64 := hash + gear byte

/-- `scan_region`: the hash behind the pairs of a region, and where they first end a chunk. -/
def scanRegion (masks : Masks) : List UInt8 → UInt64 → ℕ → UInt64 × Option ℕ
  | first :: second :: rest, hash, cursor =>
    if rollFirst hash first &&& masks.shifted = 0 then (rollFirst hash first, some cursor)
    else if rollSecond (rollFirst hash first) second &&& masks.plain = 0 then
      (rollSecond (rollFirst hash first) second, some (cursor + 1))
    else scanRegion masks rest (rollSecond (rollFirst hash first) second) (cursor + 2)
  | _, hash, _ => (hash, none)

/-- The chunker between two windows of input. -/
structure Scanner where
  chunk : List UInt8
  pending : Option UInt8
  hash : UInt64
  deriving DecidableEq

abbrev Emission := Scanner × List (List UInt8)

namespace Scanner

/-- `Scanner::new`. -/
def new : Scanner := ⟨[], none, profileSeed⟩

/-- `emit`: hands out the chunk in progress, unless it is empty. -/
def emit (scanner : Scanner) : Emission :=
  if scanner.chunk.isEmpty then (scanner, [])
  else ({ scanner with chunk := [], hash := profileSeed }, [scanner.chunk])

def masksAt (position : ℕ) : Masks :=
  if position < targetChunkBytes then smallMasks else largeMasks

/-- `process_pending_pair`. -/
def processPendingPair (scanner : Scanner) (first second : UInt8) : Emission :=
  let masks := masksAt scanner.chunk.length
  let hash := rollFirst scanner.hash first
  if hash &&& masks.shifted = 0 then
    let (scanner, out) := emit { scanner with hash := hash }
    ({ scanner with chunk := scanner.chunk ++ [first, second] }, out)
  else
    let hash := rollSecond hash second
    if hash &&& masks.plain = 0 then
      let (scanner, out) := emit { scanner with chunk := scanner.chunk ++ [first], hash := hash }
      ({ scanner with chunk := scanner.chunk ++ [second] }, out)
    else
      let scanner := { scanner with chunk := scanner.chunk ++ [first, second], hash := hash }
      if scanner.chunk.length = maximumChunkBytes then emit scanner else (scanner, [])

/-- The region of a window a chunk may end in, below a bound of its length. -/
def pairsBelow (bound position : ℕ) (bytes : List UInt8) : ℕ :=
  2 * min ((bound - position) / 2) (bytes.length / 2)

/-- The pairs of a window behind the unscanned head of a chunk: the hash behind them, where they
end the chunk, and how many bytes they are. -/
def scanPairs (position : ℕ) (bytes : List UInt8) (hash : UInt64) : UInt64 × Option ℕ × ℕ :=
  let smallEnd := pairsBelow targetChunkBytes position bytes
  match scanRegion smallMasks (bytes.take smallEnd) hash 0 with
  | (hash, some stop) => (hash, some stop, smallEnd)
  | (hash, none) =>
    let rest := bytes.drop smallEnd
    let largeEnd := pairsBelow maximumChunkBytes (position + smallEnd) rest
    match scanRegion largeMasks (rest.take largeEnd) hash 0 with
    | (hash, some stop) => (hash, some (smallEnd + stop), smallEnd + largeEnd)
    | (hash, none) => (hash, none, smallEnd + largeEnd)

/-- The loop of `consume`; each turn takes a byte or ends a chunk. -/
def consumeLoop : ℕ → Scanner → List UInt8 → Emission
  | 0, scanner, _ => (scanner, [])
  | turns + 1, scanner, bytes =>
    if bytes.isEmpty then (scanner, [])
    else
      let take := min (minimumChunkBytes - scanner.chunk.length) bytes.length
      let scanner := { scanner with chunk := scanner.chunk ++ bytes.take take }
      let bytes := bytes.drop take
      if bytes.isEmpty then (scanner, [])
      else
        let (hash, cut, cursor) := scanPairs scanner.chunk.length bytes scanner.hash
        match cut with
        | some stop =>
          let (scanner, out) :=
            emit { scanner with chunk := scanner.chunk ++ bytes.take stop, hash := hash }
          let (scanner, later) := consumeLoop turns scanner (bytes.drop stop)
          (scanner, out ++ later)
        | none =>
          let scanner := { scanner with chunk := scanner.chunk ++ bytes.take cursor, hash := hash }
          let bytes := bytes.drop cursor
          if scanner.chunk.length = maximumChunkBytes then
            let (scanner, out) := emit scanner
            let (scanner, later) := consumeLoop turns scanner bytes
            (scanner, out ++ later)
          else ({ scanner with pending := bytes.head? }, [])

/-- `consume`: one window of input. -/
def consume (scanner : Scanner) (bytes : List UInt8) : Emission :=
  match scanner.pending, bytes with
  | some first, second :: rest =>
    let (scanner, out) := processPendingPair { scanner with pending := none } first second
    let (scanner, later) := consumeLoop (2 * rest.length + 2) scanner rest
    (scanner, out ++ later)
  | _, _ => consumeLoop (2 * bytes.length + 2) scanner bytes

/-- `finish`: hands out what is left. -/
def finish (scanner : Scanner) : List (List UInt8) :=
  (emit { scanner with chunk := scanner.chunk ++ scanner.pending.toList }).2

/-! ## One byte at a time -/

def step (scanner : Scanner) (byte : UInt8) : Emission :=
  match scanner.pending with
  | some first => processPendingPair { scanner with pending := none } first byte
  | none =>
    if scanner.chunk.length < minimumChunkBytes then
      ({ scanner with chunk := scanner.chunk ++ [byte] }, [])
    else ({ scanner with pending := some byte }, [])

def feed : Scanner → List UInt8 → Emission
  | scanner, [] => (scanner, [])
  | scanner, byte :: rest =>
    let after := step scanner byte
    let later := feed after.1 rest
    (later.1, after.2 ++ later.2)

theorem feed_append {a b : List UInt8} : ∀ {scanner : Scanner},
    feed scanner (a ++ b) =
      ((feed (feed scanner a).1 b).1, (feed scanner a).2 ++ (feed (feed scanner a).1 b).2) := by
  induction a with
  | nil =>
    intro scanner
    rfl
  | cons byte rest ih =>
    intro scanner
    rw [cons_append, feed, feed, ih]
    simp only [append_assoc]

/-- What the chunker keeps between bytes: a chunk short of the maximum, whole pairs behind its
unscanned head, and no hash before them. -/
structure Ready (scanner : Scanner) : Prop where
  bounded : scanner.chunk.length < maximumChunkBytes
  even : minimumChunkBytes ≤ scanner.chunk.length → scanner.chunk.length % 2 = 0
  pending : scanner.pending.isSome → minimumChunkBytes ≤ scanner.chunk.length
  seed : scanner.chunk.length < minimumChunkBytes → scanner.hash = profileSeed

theorem new_ready : Ready new :=
  ⟨by decide, fun h => absurd h (by decide), fun h => absurd h (by decide), fun _ => rfl⟩

theorem emit_of_nonempty {scanner : Scanner} (h : scanner.chunk ≠ [])
    (hpending : scanner.pending = none) : emit scanner = (new, [scanner.chunk]) := by
  rw [emit, if_neg (by rwa [List.isEmpty_iff])]
  obtain ⟨chunk, pending, hash⟩ := scanner
  cases hpending
  rfl

variable {scanner : Scanner}

theorem processPendingPair_cases {first second : UInt8} (hpending : scanner.pending = none)
    (hlong : minimumChunkBytes ≤ scanner.chunk.length) :
    let masks := masksAt scanner.chunk.length
    let hash := rollFirst scanner.hash first
    (hash &&& masks.shifted = 0 ∧ processPendingPair scanner first second =
      (⟨[first, second], none, profileSeed⟩, [scanner.chunk])) ∨
    (hash &&& masks.shifted ≠ 0 ∧ rollSecond hash second &&& masks.plain = 0 ∧
      processPendingPair scanner first second =
        (⟨[second], none, profileSeed⟩, [scanner.chunk ++ [first]])) ∨
    (hash &&& masks.shifted ≠ 0 ∧ rollSecond hash second &&& masks.plain ≠ 0 ∧
      processPendingPair scanner first second =
        if scanner.chunk.length + 2 = maximumChunkBytes then
          (new, [scanner.chunk ++ [first, second]])
        else (⟨scanner.chunk ++ [first, second], none, rollSecond hash second⟩, [])) := by
  intro masks hash
  obtain ⟨chunk, pending, start⟩ := scanner
  dsimp only at hpending hlong hash masks ⊢
  subst hpending
  have hsome : chunk ≠ [] := by
    rintro rfl
    exact absurd hlong (by decide)
  rw [processPendingPair]
  dsimp only
  by_cases hfirst : hash &&& masks.shifted = 0
  · refine .inl ⟨hfirst, ?_⟩
    rw [if_pos hfirst, emit_of_nonempty hsome rfl]
    rfl
  · by_cases hsecond : rollSecond hash second &&& masks.plain = 0
    · refine .inr (.inl ⟨hfirst, hsecond, ?_⟩)
      rw [if_neg hfirst, if_pos hsecond, emit_of_nonempty (by simp) rfl]
      rfl
    · refine .inr (.inr ⟨hfirst, hsecond, ?_⟩)
      rw [if_neg hfirst, if_neg hsecond]
      have hlength : (chunk ++ [first, second]).length = chunk.length + 2 := by simp
      rw [hlength]
      split_ifs
      · rw [emit_of_nonempty (by simp) rfl]
      · rfl

theorem processPendingPair_pending (hpending : scanner.pending = none)
    (hlong : minimumChunkBytes ≤ scanner.chunk.length) :
    (processPendingPair scanner first second).1.pending = none := by
  obtain ⟨-, hpair⟩ | ⟨-, -, hpair⟩ | ⟨-, -, hpair⟩ :=
    @processPendingPair_cases scanner first second hpending hlong
  · rw [hpair]
  · rw [hpair]
  · rw [hpair]
    split_ifs <;> rfl

theorem feed_pair {rest : List UInt8} (hpending : scanner.pending = none)
    (hlong : minimumChunkBytes ≤ scanner.chunk.length) :
    feed scanner (first :: second :: rest) =
      ((feed (processPendingPair scanner first second).1 rest).1,
        (processPendingPair scanner first second).2 ++
          (feed (processPendingPair scanner first second).1 rest).2) := by
  obtain ⟨chunk, pending, hash⟩ := scanner
  dsimp only at hpending hlong
  subst hpending
  have hstep : step ⟨chunk, none, hash⟩ first = (⟨chunk, some first, hash⟩, []) := by
    rw [step]
    exact if_neg (by dsimp only; omega)
  rw [feed, hstep, feed, step]
  rfl

theorem feed_head {bytes : List UInt8} : ∀ {scanner : Scanner}, scanner.pending = none →
    scanner.chunk.length + bytes.length ≤ minimumChunkBytes →
    feed scanner bytes = ({ scanner with chunk := scanner.chunk ++ bytes }, []) := by
  induction bytes with
  | nil =>
    intro scanner _ _
    rw [feed, append_nil]
  | cons byte rest ih =>
    intro scanner hpending hlength
    obtain ⟨chunk, pending, hash⟩ := scanner
    dsimp only at hpending hlength
    subst hpending
    rw [length_cons] at hlength
    have hstep : step ⟨chunk, none, hash⟩ byte = (⟨chunk ++ [byte], none, hash⟩, []) := by
      rw [step]
      exact if_pos (by dsimp only; omega)
    rw [feed, hstep, ih rfl (by simp; omega)]
    simp

theorem step_ready {byte : UInt8} (h : Ready scanner) : Ready (step scanner byte).1 := by
  obtain ⟨chunk, pending, hash⟩ := scanner
  obtain ⟨hbounded, heven, hpending, hseed⟩ := h
  dsimp only at hbounded heven hpending hseed
  rcases pending with _ | first
  · rw [step]
    dsimp only
    split_ifs with hshort
    · have := show minimumChunkBytes = 8192 from rfl
      have := show maximumChunkBytes = 32768 from rfl
      refine ⟨?_, fun hlong => ?_, fun hsome => (by cases hsome), fun hhead => hseed hshort⟩
      · simp only [length_append, length_singleton]
        omega
      · simp only [length_append, length_singleton] at hlong ⊢
        omega
    · exact ⟨hbounded, heven, fun _ => Nat.not_lt.mp hshort, hseed⟩
  · have hlong := hpending rfl
    have heven := heven hlong
    rw [step]
    dsimp only
    have := show minimumChunkBytes = 8192 from rfl
    have := show maximumChunkBytes = 32768 from rfl
    obtain ⟨-, hpair⟩ | ⟨-, -, hpair⟩ | ⟨-, -, hpair⟩ :=
      @processPendingPair_cases ⟨chunk, none, hash⟩ first byte rfl hlong
    · rw [hpair]
      refine ⟨?_, fun hlong => ?_, fun hsome => (by cases hsome), fun _ => rfl⟩
      · dsimp only [length_cons, length_nil]
        omega
      · dsimp only [length_cons, length_nil] at hlong
        omega
    · rw [hpair]
      refine ⟨?_, fun hlong => ?_, fun hsome => (by cases hsome), fun _ => rfl⟩
      · dsimp only [length_cons, length_nil]
        omega
      · dsimp only [length_cons, length_nil] at hlong
        omega
    · rw [hpair]
      dsimp only
      split_ifs with hfull
      · exact new_ready
      · refine ⟨?_, fun _ => ?_, fun hsome => (by cases hsome), fun hhead => ?_⟩
        · simp only [length_append, length_cons, length_nil]
          omega
        · simp only [length_append, length_cons, length_nil]
          omega
        · simp only [length_append, length_cons, length_nil] at hhead
          omega

theorem feed_ready : ∀ {scanner : Scanner}, Ready scanner →
    Ready (feed scanner bytes).1 := by
  induction bytes with
  | nil => exact fun h => h
  | cons byte rest ih => exact fun h => ih (step_ready h)

/-! ## A window is its bytes -/

def after (out : List (List UInt8)) (run : Emission) : Emission := (run.1, out ++ run.2)

@[simp]
theorem after_nil {run : Emission} : after [] run = run := rfl

def full (scanner : Scanner) : Emission :=
  if scanner.chunk.length = maximumChunkBytes then emit scanner else (scanner, [])

theorem full_of_ready (h : scanner.chunk.length < maximumChunkBytes) :
    full scanner = (scanner, []) :=
  if_neg (by omega)

theorem feed_pair_cases {chunk : List UInt8} {hash : UInt64} {first second : UInt8}
    {rest : List UInt8} (hlong : minimumChunkBytes ≤ chunk.length) :
    let masks := masksAt chunk.length
    let rolled := rollFirst hash first
    feed ⟨chunk, none, hash⟩ (first :: second :: rest) =
      if rolled &&& masks.shifted = 0 then after [chunk] (feed new (first :: second :: rest))
      else if rollSecond rolled second &&& masks.plain = 0 then
        after [chunk ++ [first]] (feed new (second :: rest))
      else
        let passed := full ⟨chunk ++ [first, second], none, rollSecond rolled second⟩
        after passed.2 (feed passed.1 rest) := by
  intro masks rolled
  have hpair : ∀ a b : UInt8, feed new [a, b] = (⟨[a, b], none, profileSeed⟩, []) :=
    fun a b => feed_head rfl (show 2 ≤ 8192 by decide)
  have hone : ∀ b : UInt8, feed new [b] = (⟨[b], none, profileSeed⟩, []) :=
    fun b => feed_head rfl (show 1 ≤ 8192 by decide)
  rw [feed_pair rfl hlong]
  obtain ⟨hfirst, hpaired⟩ | ⟨hfirst, hsecond, hpaired⟩ | ⟨hfirst, hsecond, hpaired⟩ :=
    @processPendingPair_cases ⟨chunk, none, hash⟩ first second rfl hlong
  · rw [if_pos hfirst, hpaired]
    have happ := @feed_append [first, second] rest new
    rw [hpair, nil_append] at happ
    rw [show first :: second :: rest = [first, second] ++ rest from rfl, happ]
    rfl
  · rw [if_neg hfirst, if_pos hsecond, hpaired]
    have happ := @feed_append [second] rest new
    rw [hone, nil_append] at happ
    rw [show second :: rest = [second] ++ rest from rfl, happ]
    rfl
  · rw [if_neg hfirst, if_neg hsecond, hpaired, full]
    have hlength : (chunk ++ [first, second]).length = chunk.length + 2 := by simp
    dsimp only
    rw [hlength]
    split_ifs with hfull
    · rw [emit_of_nonempty (by simp) rfl]
      rfl
    · rfl

def MasksThrough (masks : Masks) (start length : ℕ) : Prop :=
  ∀ i, i + 2 ≤ length → masksAt (start + i) = masks

theorem MasksThrough.rest {masks : Masks} {start length : ℕ}
    (h : MasksThrough masks start (length + 2)) : MasksThrough masks (start + 2) length := by
  intro i hi
  have := h (i + 2) (by omega)
  rwa [show start + (i + 2) = start + 2 + i by omega] at this

/-- **A region's scan is feeding it**: either a chunk ends where the scan says, and what is behind
starts a new one, or the region joins the chunk. -/
theorem feed_region {masks : Masks} {rest : List UInt8} : ∀ {region : List UInt8} {hash : UInt64}
    {cursor : ℕ} {chunk : List UInt8}, region.length % 2 = 0 →
    minimumChunkBytes ≤ chunk.length → chunk.length < maximumChunkBytes →
    chunk.length + region.length ≤ maximumChunkBytes →
    MasksThrough masks chunk.length region.length →
    match scanRegion masks region hash cursor with
    | (_, some stop) => cursor ≤ stop ∧ stop - cursor < region.length ∧
        feed ⟨chunk, none, hash⟩ (region ++ rest) =
          after [chunk ++ region.take (stop - cursor)]
            (feed new (region.drop (stop - cursor) ++ rest))
    | (passed, none) => feed ⟨chunk, none, hash⟩ (region ++ rest) =
        after (full ⟨chunk ++ region, none, passed⟩).2
          (feed (full ⟨chunk ++ region, none, passed⟩).1 rest) := by
  intro region hash cursor
  -- The cases of the scan: a cut before the pair, one inside it, the pairs behind it, no pair.
  fun_induction scanRegion masks region hash cursor with
  | case1 first second region hash cursor hfirst =>
    intro chunk _ hlong _ _ hmasks
    have hhere : masksAt chunk.length = masks := hmasks 0 (by simp)
    refine ⟨le_refl _, by simp, ?_⟩
    rw [cons_append, cons_append, feed_pair_cases hlong, hhere, if_pos hfirst]
    simp
  | case2 first second region hash cursor hfirst hsecond =>
    intro chunk _ hlong _ _ hmasks
    have hhere : masksAt chunk.length = masks := hmasks 0 (by simp)
    refine ⟨by omega, by simp, ?_⟩
    rw [cons_append, cons_append, feed_pair_cases hlong, hhere, if_neg hfirst,
      if_pos hsecond]
    simp
  | case3 first second region hash cursor hfirst hsecond ih =>
    intro chunk heven hlong hshort hmax hmasks
    have hhere : masksAt chunk.length = masks := hmasks 0 (by simp)
    simp only [length_cons] at heven hmax hmasks
    rcases Nat.eq_zero_or_pos region.length with hnil | hsome
    · obtain rfl := length_eq_zero_iff.mp hnil
      simp only [scanRegion]
      rw [cons_append, cons_append, feed_pair_cases hlong, hhere, if_neg hfirst,
        if_neg hsecond]
      rfl
    · have hlength : (chunk ++ [first, second]).length = chunk.length + 2 := by simp
      have := @ih (chunk ++ [first, second]) (by omega) (by omega) (by omega) (by omega)
        (by rw [hlength]; exact hmasks.rest)
      rw [cons_append, cons_append, feed_pair_cases hlong, hhere, if_neg hfirst,
        if_neg hsecond, full_of_ready (by dsimp only; omega)]
      rcases hscan : scanRegion masks region (rollSecond (rollFirst hash first) second) (cursor + 2)
        with ⟨passed, _ | stop⟩
      · rw [hscan] at this
        simpa using this
      · rw [hscan] at this
        obtain ⟨hstop, hinside, heq⟩ := this
        refine ⟨by omega, by simp only [length_cons]; omega, ?_⟩
        obtain ⟨ahead, hahead⟩ : ∃ ahead, stop - cursor = ahead + 2 := ⟨stop - cursor - 2, by omega⟩
        rw [show stop - (cursor + 2) = ahead by omega] at heq
        rw [hahead]
        simpa using heq
  | case4 region hash cursor hshort =>
    intro chunk heven hlong hbounded hmax hmasks
    have hnil : region = [] := by
      rcases region with _ | ⟨first, _ | ⟨second, rest⟩⟩
      · rfl
      · simp at heven
      · exact absurd rfl (hshort first second rest)
    subst hnil
    dsimp only
    rw [nil_append, append_nil, full_of_ready hbounded]
    rfl

theorem drop_take_append_drop {stop count : ℕ} (h : stop ≤ (bytes.take count).length) :
    (bytes.take count).drop stop ++ bytes.drop count = bytes.drop stop := by
  rw [← drop_append_of_le_length h, take_append_drop]

theorem feed_scanPairs {chunk bytes : List UInt8} {hash : UInt64}
    (hlong : minimumChunkBytes ≤ chunk.length) (hbounded : chunk.length < maximumChunkBytes)
    (heven : chunk.length % 2 = 0) :
    match scanPairs chunk.length bytes hash with
    | (_, some stop, _) => stop < bytes.length ∧
        feed ⟨chunk, none, hash⟩ bytes =
          after [chunk ++ bytes.take stop] (feed new (bytes.drop stop))
    | (passed, none, cursor) =>
        (chunk.length + cursor = maximumChunkBytes ∧ cursor ≤ bytes.length ∨
          chunk.length + cursor < maximumChunkBytes ∧ cursor ≤ bytes.length ∧
            bytes.length ≤ cursor + 1) ∧
        feed ⟨chunk, none, hash⟩ bytes =
          after (full ⟨chunk ++ bytes.take cursor, none, passed⟩).2
            (feed (full ⟨chunk ++ bytes.take cursor, none, passed⟩).1 (bytes.drop cursor)) := by
  have hmin := show minimumChunkBytes = 8192 from rfl
  have htarget := show targetChunkBytes = 16384 from rfl
  have hmax := show maximumChunkBytes = 32768 from rfl
  rw [scanPairs]
  dsimp only
  set small := pairsBelow targetChunkBytes chunk.length bytes with hsmall
  rw [pairsBelow] at hsmall
  have hsmallLength : (bytes.take small).length = small := by
    rw [length_take]
    omega
  have hsmallMasks : MasksThrough smallMasks chunk.length (bytes.take small).length := by
    intro i hi
    rw [masksAt, if_pos (by omega)]
  have hfirst := @feed_region smallMasks (bytes.drop small) (bytes.take small) hash 0 chunk
    (by omega) hlong hbounded (by omega) hsmallMasks
  rw [take_append_drop] at hfirst
  rcases hscan : scanRegion smallMasks (bytes.take small) hash 0 with ⟨passed, _ | stop⟩
  · rw [hscan] at hfirst
    dsimp only at hfirst ⊢
    rw [full_of_ready (by simp only [length_append]; omega)] at hfirst
    -- Behind the small masks, the rest of the window is under the large ones.
    set large := pairsBelow maximumChunkBytes (chunk.length + small) (bytes.drop small) with hlarge
    rw [pairsBelow, length_drop] at hlarge
    have hlargeLength : ((bytes.drop small).take large).length = large := by
      rw [length_take, length_drop]
      omega
    have hchunk : (chunk ++ bytes.take small).length = chunk.length + small := by
      rw [length_append, hsmallLength]
    have hlargeMasks : MasksThrough largeMasks (chunk ++ bytes.take small).length
        ((bytes.drop small).take large).length := by
      intro i hi
      rw [masksAt, if_neg (by omega)]
    have hsecond := @feed_region largeMasks ((bytes.drop small).drop large)
      ((bytes.drop small).take large) passed 0 (chunk ++ bytes.take small) (by omega) (by omega)
      (by omega) (by omega) hlargeMasks
    rw [take_append_drop] at hsecond
    have htake : ∀ count, chunk ++ bytes.take small ++ (bytes.drop small).take count =
        chunk ++ bytes.take (small + count) := by
      intro count
      rw [append_assoc, ← take_add]
    rcases hagain : scanRegion largeMasks ((bytes.drop small).take large) passed 0 with
      ⟨last, _ | stop⟩
    · rw [hagain] at hsecond
      dsimp only at hsecond ⊢
      rw [htake, drop_drop] at hsecond
      refine ⟨?_, ?_⟩
      · omega
      · rw [hfirst, after_nil, hsecond]
    · rw [hagain] at hsecond
      obtain ⟨-, hinside, heq⟩ := hsecond
      dsimp only
      rw [Nat.sub_zero] at hinside heq
      refine ⟨by omega, ?_⟩
      rw [hfirst, after_nil, heq, take_take, Nat.min_eq_left (by omega), htake,
        drop_take_append_drop (by omega), drop_drop]
  · rw [hscan] at hfirst
    obtain ⟨-, hinside, heq⟩ := hfirst
    dsimp only
    rw [Nat.sub_zero] at hinside heq
    refine ⟨by omega, ?_⟩
    rw [heq, take_take, Nat.min_eq_left (by omega), drop_take_append_drop (by omega)]

/-- **The loop of a window is feeding it**, with a turn for each byte and each chunk end. -/
theorem consumeLoop_eq_feed : ∀ {turns : ℕ} {scanner : Scanner} {bytes : List UInt8},
    Ready scanner → scanner.pending = none →
    2 * bytes.length + (if scanner.chunk = [] then 0 else 1) < turns →
    consumeLoop turns scanner bytes = feed scanner bytes := by
  intro turns
  induction turns with
  | zero => exact fun _ _ hturns => absurd hturns (Nat.not_lt_zero _)
  | succ turns ih =>
    intro scanner bytes hready hpending hturns
    have hmin := show minimumChunkBytes = 8192 from rfl
    have hmax := show maximumChunkBytes = 32768 from rfl
    obtain ⟨chunk, pending, hash⟩ := scanner
    obtain ⟨hbounded, heven, -, hseed⟩ := hready
    dsimp only at hpending hturns hbounded heven hseed
    subst hpending
    rw [consumeLoop]
    by_cases hnone : bytes.isEmpty
    · rw [if_pos hnone, List.isEmpty_iff.mp hnone, feed]
    rw [if_neg hnone]
    rw [List.isEmpty_iff, ← length_eq_zero_iff] at hnone
    dsimp only
    set take := min (minimumChunkBytes - chunk.length) bytes.length with htake
    have hheads : feed ⟨chunk, none, hash⟩ (bytes.take take) =
        (⟨chunk ++ bytes.take take, none, hash⟩, []) := by
      rcases Nat.lt_or_ge chunk.length minimumChunkBytes with hshort | hlong
      · exact feed_head rfl (by rw [length_take]; dsimp only; omega)
      · rw [show take = 0 by omega, take_zero, append_nil, feed]
    have hsplit : feed ⟨chunk, none, hash⟩ bytes =
        feed ⟨chunk ++ bytes.take take, none, hash⟩ (bytes.drop take) := by
      nth_rewrite 1 [← take_append_drop take bytes]
      rw [feed_append, hheads]
      rfl
    rw [hsplit]
    by_cases hhead : (bytes.drop take).isEmpty
    · -- The window ends inside the head of the chunk.
      rw [if_pos hhead, List.isEmpty_iff.mp hhead, feed]
    rw [if_neg hhead]
    rw [List.isEmpty_iff, drop_eq_nil_iff] at hhead
    set head := chunk ++ bytes.take take with hheadEq
    have hlength : head.length = max chunk.length minimumChunkBytes := by
      rw [hheadEq, length_append, length_take]
      omega
    have hrest : (bytes.drop take).length = bytes.length - take := length_drop
    set rest := bytes.drop take with hrestEq
    have hroom : 2 * rest.length < turns := by
      rcases chunk with _ | ⟨byte, tail⟩
      · rw [if_pos rfl] at hturns
        rw [length_nil] at htake
        omega
      · rw [if_neg (by simp)] at hturns
        omega
    have hscan := @feed_scanPairs head rest hash (by omega) (by omega) (by omega)
    rcases hcut : scanPairs head.length rest hash with ⟨passed, _ | stop, cursor⟩
    · rw [hcut] at hscan
      obtain ⟨hcursor, hfed⟩ := hscan
      have hjoined : (head ++ rest.take cursor).length = head.length + cursor := by
        rw [length_append, length_take]
        omega
      dsimp only
      rw [hjoined, hfed, full]
      dsimp only
      rw [hjoined]
      split_ifs with hfull
      · rw [emit_of_nonempty (by rw [← length_pos_iff_ne_nil]; dsimp only; omega) rfl]
        rw [ih new_ready rfl (by
          rw [if_pos (show new.chunk = [] from rfl), length_drop]
          omega)]
        rfl
      · have hone : (rest.drop cursor).length ≤ 1 := by
          rw [length_drop]
          omega
        rcases hlast : rest.drop cursor with _ | ⟨byte, _ | ⟨second, others⟩⟩
        · rfl
        · have : ¬(head ++ rest.take cursor).length < minimumChunkBytes := by omega
          rw [after_nil, feed, step]
          dsimp only
          rw [if_neg this]
          rfl
        · rw [hlast] at hone
          simp at hone
    · rw [hcut] at hscan
      obtain ⟨hstop, hfed⟩ := hscan
      dsimp only
      rw [hfed, emit_of_nonempty (by
        rw [← length_pos_iff_ne_nil]
        simp only [length_append]
        omega) rfl]
      rw [ih new_ready rfl (by
          rw [if_pos (show new.chunk = [] from rfl), length_drop]
          omega)]
      rfl

/-- **The windows do not matter**: consuming a window is feeding its bytes. -/
theorem consume_eq_feed (h : Ready scanner) : consume scanner bytes = feed scanner bytes := by
  obtain ⟨chunk, pending, hash⟩ := scanner
  have hturns : ∀ (chunk bytes : List UInt8),
      2 * bytes.length + (if chunk = [] then 0 else 1) < 2 * bytes.length + 2 := by
    intro chunk bytes
    split_ifs <;> omega
  rcases pending with _ | first
  · exact consumeLoop_eq_feed h rfl (hturns _ _)
  rcases bytes with _ | ⟨second, rest⟩
  · rfl
  have hstep := @step_ready ⟨chunk, some first, hash⟩ second h
  have hpending : (step ⟨chunk, some first, hash⟩ second).1.pending = none :=
    processPendingPair_pending rfl (h.pending rfl)
  have hloop := consumeLoop_eq_feed hstep hpending (hturns _ rest)
  rw [feed, ← hloop]
  rfl

theorem consume_ready (h : Ready scanner) : Ready (consume scanner bytes).1 := by
  rw [consume_eq_feed h]
  exact feed_ready h

end Scanner

end LayerFs
