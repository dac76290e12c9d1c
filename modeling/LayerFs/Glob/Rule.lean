import LayerFs.Merge.Paths

/-!
# Path patterns

Rules in the syntax of `/.lww` (`merge/lww.rs`), and the literal folders a pattern leads with
(`read/walk.rs`), each cut out of the text by code of its own. Texts are UTF-8 bytes; a character is
the bytes of its encoding.

* `matchesPath_leading` — **a match begins with the leading folders**.
-/

namespace LayerFs.Glob

open List

/-! ## Characters -/

abbrev Character := List ℕ

/-- The characters of a text: a byte that continues none begins one. -/
def chars : List ℕ → List Character
  | [] => []
  | byte :: rest =>
    match chars rest with
    | [] => [[byte]]
    | first :: later =>
      if isContinuation (first.headD 0) then (byte :: first) :: later else [byte] :: first :: later

/-- `*`, `?`, `!` and `/`. -/
def star : ℕ := 0x2A

@[inherit_doc star]
def question : ℕ := 0x3F

@[inherit_doc star]
def bang : ℕ := 0x21

def isWildcard (byte : ℕ) : Bool := byte == star || byte == question

theorem chars_flatten (text : List ℕ) : (chars text).flatten = text := by
  induction text with
  | nil => rfl
  | cons byte rest ih =>
    rw [chars]
    rcases hrest : chars rest with _ | ⟨first, later⟩
    · rw [hrest] at ih
      rw [← ih]
      rfl
    · rw [hrest] at ih
      dsimp only
      split_ifs
      · rw [← ih]
        rfl
      · rw [← ih]
        rfl

theorem chars_cons (byte : ℕ) (rest : List ℕ) :
    ∃ more later, chars (byte :: rest) = (byte :: more) :: later := by
  rw [chars]
  rcases chars rest with _ | ⟨first, later⟩
  · exact ⟨[], [], rfl⟩
  · dsimp only
    split_ifs
    · exact ⟨first, later, rfl⟩
    · exact ⟨[], first :: later, rfl⟩

theorem chars_append (a : List ℕ) {b : List ℕ}
    (hb : ∀ byte ∈ b.head?, isContinuation byte = false) : chars (a ++ b) = chars a ++ chars b := by
  induction a with
  | nil => rfl
  | cons byte a ih =>
    rw [cons_append, chars, chars, ih]
    rcases ha : chars a with _ | ⟨first, later⟩
    · rcases b with _ | ⟨next, b⟩
      · rfl
      · obtain ⟨more, after, hafter⟩ := chars_cons next b
        rw [nil_append, hafter]
        exact if_neg (by rw [headD_cons, hb next rfl]; decide)
    · dsimp only [cons_append]
      split_ifs
      · rfl
      · rfl

/-! ## Rules -/

/-- `Token`. -/
inductive Token where
  | char (c : Character)
  /-- `?`: one character other than `/`. -/
  | one
  /-- `*`: any run without `/`. -/
  | name
  /-- `**`: any run. -/
  | any
  /-- `**/` at a name boundary: zero or more complete directory names. -/
  | directories
  deriving DecidableEq

/-- `Rule`. -/
structure Rule where
  pattern : List ℕ
  negated : Bool
  anchored : Bool
  tokens : List Token

/-- `**/` stands for directories behind nothing, a `/` or another. -/
def opensName : Option Token → Bool
  | none => true
  | some .directories => true
  | some (.char c) => c == [slash]
  | _ => false

/-- The loop of `parse` over the characters of a pattern's body. -/
def parseTokens : Option Token → List Character → List Token
  | _, [] => []
  | last, c :: rest =>
    if c = [star] then
      match rest with
      | [] => [.name]
      | next :: more =>
        if next = [star] then
          match more with
          | [] => [.any]
          | third :: others =>
            if opensName last && third == [slash] then
              .directories :: parseTokens (some .directories) others
            else .any :: parseTokens (some .any) (third :: others)
        else .name :: parseTokens (some .name) (next :: more)
    else if c = [question] then .one :: parseTokens (some .one) rest
    else .char c :: parseTokens (some (.char c)) rest

/-- `strip_prefix` of one byte. -/
def withoutFirst (byte : ℕ) : List ℕ → List ℕ
  | [] => []
  | first :: rest => if first = byte then rest else first :: rest

/-- `strip_suffix` of one byte. -/
def withoutLast (byte : ℕ) (text : List ℕ) : List ℕ :=
  if text.getLast? = some byte then text.dropLast else text

/-- What is left of a pattern without its `!` and a trailing `/`. -/
def bodyOf (pattern : List ℕ) : List ℕ := withoutLast slash (withoutFirst bang pattern)

/-- `parse`. -/
def parse (line : List ℕ) : Rule where
  pattern := line
  negated := line.head? == some bang
  anchored := (bodyOf line).contains slash
  tokens := parseTokens none (chars (withoutFirst slash (bodyOf line)))

def bit (bits : List Bool) (position : ℕ) : Bool := bits.getD position false

/-- The positions some tokens reach, from those the tokens before reach. -/
def advance (path : List Character) (current : List Bool) (token : Token) : List Bool :=
  (List.range (path.length + 1)).map fun p =>
    match token with
    | .char c => p != 0 && bit current (p - 1) && path[p - 1]? == some c
    | .one => p != 0 && bit current (p - 1) && path[p - 1]? != some [slash]
    | .name => (List.range (p + 1)).any fun q =>
        bit current q && !(((path.take p).drop q).contains [slash])
    | .any => (List.range (p + 1)).any fun q => bit current q
    | .directories => bit current p || (p != 0 && path[p - 1]? == some [slash] &&
        (List.range p).any fun q => bit current q)

def startBits (path : List Character) (start : ℕ) : List Bool :=
  (List.range (path.length + 1)).map fun p => p == start

/-- `Rule::matches_from`. -/
def Rule.matchesFrom (rule : Rule) (path : List Character) (start : ℕ) (whole : Bool) : Bool :=
  let current := rule.tokens.foldl (advance path) (startBits path start)
  (List.range (path.length + 1)).any fun p =>
    bit current p && (p == path.length || (!whole && path[p]? == some [slash]))

/-- Behind each `/`. -/
def nameStarts (path : List Character) : List ℕ :=
  ((List.range path.length).filter fun i => path[i]? == some [slash]).map (· + 1)

/-- `Rule::matches`. -/
def Rule.matchesAny (rule : Rule) (path : List Character) (whole : Bool) : Bool :=
  (0 :: if rule.anchored then [] else nameStarts path).any fun start =>
    rule.matchesFrom path start whole

/-- `trim_start_matches('/')`. -/
def trim (path : List ℕ) : List ℕ := path.dropWhile (· == slash)

/-- `Rule::matches_path`. -/
def Rule.matchesPath (rule : Rule) (path : List ℕ) : Bool :=
  rule.matchesAny (chars (trim path)) true

/-! ## The leading folders -/

/-- A text up to its last `/`, that one included. -/
def throughSlash (text : List ℕ) : List ℕ := (text.reverse.dropWhile (· != slash)).reverse

/-- `leading`. -/
def leading (pattern : List ℕ) : Option (List ℕ) :=
  if (bodyOf pattern).contains slash then
    let literal := (withoutFirst slash (bodyOf pattern)).takeWhile (!isWildcard ·)
    if literal.contains slash then some (throughSlash literal) else none
  else none

/-! ## Matches begin with them -/

theorem parseTokens_literal {literal : List Character} (rest : List Character) :
    ∀ last : Option Token, (∀ c ∈ literal, c ≠ [star] ∧ c ≠ [question]) →
      ∃ last', parseTokens last (literal ++ rest) =
        literal.map Token.char ++ parseTokens last' rest := by
  induction literal with
  | nil => exact fun last _ => ⟨last, rfl⟩
  | cons c literal ih =>
    intro last hliteral
    obtain ⟨⟨hstar, hquestion⟩, hliteral⟩ := forall_mem_cons.mp hliteral
    obtain ⟨last', hrest⟩ := ih (some (.char c)) hliteral
    refine ⟨last', ?_⟩
    rw [cons_append, parseTokens.eq_def]
    dsimp only
    rw [if_neg hstar, if_neg hquestion, hrest]
    rfl

theorem bit_map_range {n p : ℕ} {f : ℕ → Bool} (h : bit ((List.range n).map f) p = true) :
    p < n ∧ f p = true := by
  rw [bit, getD_eq_getElem?_getD, getElem?_map] at h
  rcases Nat.lt_or_ge p n with hp | hp
  · rw [getElem?_range hp] at h
    exact ⟨hp, h⟩
  · rw [getElem?_eq_none (by rw [length_range]; exact hp)] at h
    cases h

theorem exists_bit_of_advance {path : List Character} {current : List Bool} {token : Token} {p : ℕ}
    (h : bit (advance path current token) p = true) : ∃ q, bit current q = true := by
  obtain ⟨-, h⟩ := bit_map_range h
  cases token with
  | char c =>
    simp only [Bool.and_eq_true] at h
    exact ⟨p - 1, h.1.2⟩
  | one =>
    simp only [Bool.and_eq_true] at h
    exact ⟨p - 1, h.1.2⟩
  | name =>
    obtain ⟨q, -, hq⟩ := any_eq_true.mp h
    exact ⟨q, (Bool.and_eq_true_iff.mp hq).1⟩
  | any =>
    obtain ⟨q, -, hq⟩ := any_eq_true.mp h
    exact ⟨q, hq⟩
  | directories =>
    rcases Bool.or_eq_true_iff.mp h with h | h
    · exact ⟨p, h⟩
    · obtain ⟨q, -, hq⟩ := any_eq_true.mp (Bool.and_eq_true_iff.mp h).2
      exact ⟨q, hq⟩

theorem exists_bit_of_foldl {path : List Character} {tokens : List Token} :
    ∀ {current : List Bool} {p : ℕ}, bit (tokens.foldl (advance path) current) p = true →
      ∃ q, bit current q = true := by
  induction tokens with
  | nil => exact fun h => ⟨_, h⟩
  | cons token tokens ih =>
    intro current p h
    obtain ⟨q, hq⟩ := ih h
    exact exists_bit_of_advance hq

/-- **Literal characters are those of the path**, from the start on. -/
theorem take_of_literal {path literal : List Character} :
    ∀ {done : List Character} {current : List Bool},
      (∀ p, bit current p = true → path.take p = done ∧ p = done.length) →
      ∀ {p : ℕ}, bit ((literal.map Token.char).foldl (advance path) current) p = true →
        path.take p = done ++ literal ∧ p = (done ++ literal).length := by
  induction literal with
  | nil =>
    intro done current hcurrent p h
    rw [append_nil]
    exact hcurrent p h
  | cons c literal ih =>
    intro done current hcurrent p h
    have hstep : ∀ p, bit (advance path current (.char c)) p = true →
        path.take p = done ++ [c] ∧ p = (done ++ [c]).length := by
      intro p h
      obtain ⟨-, h⟩ := bit_map_range h
      simp only [Bool.and_eq_true, bne_iff_ne, beq_iff_eq] at h
      obtain ⟨⟨hp, hbit⟩, hc⟩ := h
      obtain ⟨htake, hlength⟩ := hcurrent (p - 1) hbit
      obtain ⟨q, rfl⟩ : ∃ q, p = q + 1 := ⟨p - 1, by omega⟩
      rw [Nat.add_sub_cancel] at htake hlength hc
      rw [take_add_one, htake, hc, length_append, ← hlength]
      exact ⟨rfl, rfl⟩
    have hall := ih hstep h
    rw [append_assoc] at hall
    exact hall

theorem throughSlash_isPrefix (text : List ℕ) : throughSlash text <+: text := by
  rw [throughSlash, ← reverse_suffix, reverse_reverse]
  exact dropWhile_suffix _

theorem chars_not_wildcard {text : List ℕ} (h : ∀ byte ∈ text, isWildcard byte = false) :
    ∀ c ∈ chars text, c ≠ [star] ∧ c ≠ [question] := by
  intro c hc
  have hbytes : ∀ byte ∈ c, isWildcard byte = false := by
    intro byte hbyte
    apply h
    rw [← chars_flatten text]
    exact mem_flatten.mpr ⟨c, hc, hbyte⟩
  constructor
  · rintro rfl
    exact absurd (hbytes star mem_cons_self) (by decide)
  · rintro rfl
    exact absurd (hbytes question mem_cons_self) (by decide)

theorem chars_literal (body : List ℕ) :
    chars body = chars (body.takeWhile (!isWildcard ·)) ++
      chars (body.dropWhile (!isWildcard ·)) := by
  have hrest : ∀ byte ∈ (body.dropWhile (!isWildcard ·)).head?, isContinuation byte = false := by
    intro byte hbyte
    have hwild := head?_dropWhile_not (!isWildcard ·) body
    rw [hbyte] at hwild
    have hbyte : isWildcard byte = true := by simpa using hwild
    rw [isWildcard, Bool.or_eq_true, beq_iff_eq, beq_iff_eq] at hbyte
    rcases hbyte with rfl | rfl
    · decide
    · decide
  rw [← chars_append _ hrest, takeWhile_append_dropWhile]

/-- **A match begins with the leading folders** of its pattern. -/
theorem matchesPath_leading {pattern folders path : List ℕ}
    (hfolders : leading pattern = some folders)
    (hmatch : (parse pattern).matchesPath path = true) : folders <+: trim path := by
  rw [leading] at hfolders
  split_ifs at hfolders with hanchored
  dsimp only at hfolders
  split_ifs at hfolders with hslash
  obtain rfl := Option.some.inj hfolders
  generalize hbody : withoutFirst slash (bodyOf pattern) = body
  have hanchor : (parse pattern).anchored = true := hanchored
  obtain ⟨last, htokens⟩ := parseTokens_literal (chars (body.dropWhile (!isWildcard ·))) none
    (chars_not_wildcard fun byte hbyte => by
      simpa using all_eq_true.mp
        (all_takeWhile (p := fun b => !isWildcard b) (l := body)) byte hbyte)
  rw [← chars_literal] at htokens
  -- an anchored rule is matched from the start of the path alone
  rw [Rule.matchesPath, Rule.matchesAny, hanchor, if_pos rfl] at hmatch
  simp only [any_cons, any_nil, Bool.or_false, Rule.matchesFrom] at hmatch
  obtain ⟨p, -, hp⟩ := any_eq_true.mp hmatch
  have hbit := (Bool.and_eq_true_iff.mp hp).1
  rw [show (parse pattern).tokens = parseTokens none (chars body) by rw [← hbody]; rfl, htokens,
    foldl_append] at hbit
  obtain ⟨q, hq⟩ := exists_bit_of_foldl hbit
  have hstart : ∀ p, bit (startBits (chars (trim path)) 0) p = true →
      (chars (trim path)).take p = [] ∧ p = ([] : List Character).length := by
    intro p h
    obtain ⟨-, h⟩ := bit_map_range h
    rw [beq_iff_eq] at h
    rw [h]
    exact ⟨rfl, rfl⟩
  obtain ⟨htake, -⟩ := take_of_literal hstart hq
  rw [nil_append] at htake
  refine (throughSlash_isPrefix _).trans ⟨((chars (trim path)).drop q).flatten, ?_⟩
  rw [← chars_flatten (body.takeWhile _), ← htake, ← flatten_append, take_append_drop,
    chars_flatten]

end LayerFs.Glob
