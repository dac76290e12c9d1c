import LayerFs.Glob.Rule
import LayerFs.Support.Globs

/-!
# Rules as they are declared (`merge/lww.rs`)

The matcher keeps the positions every token reaches; a rule's text says which runs each of its
forms stands for. Both are the same, for every text and path, and of several rules the last
that covers a path decides.

* `matching_declared` — **the matcher agrees with the declared meaning**.
-/

namespace LayerFs.Glob

open List

/-! ## Runs of tokens -/

/-- `/`, `*` and `?` as characters. -/
def symbols : Symbols Character where
  slash := [slash]
  star := [star]
  question := [question]
  star_ne := by decide
  question_ne := by decide
  ne := by decide

def TokenRun : Token → List Character → Prop
  | .char c, run => run = [c]
  | .one, run => ∃ c, c ≠ [slash] ∧ run = [c]
  | .name, run => [slash] ∉ run
  | .any, _ => True
  | .directories, run => symbols.Boundary run

def TokensRun : List Token → List Character → Prop
  | [], run => run = []
  | token :: rest, run => ∃ a b, run = a ++ b ∧ TokenRun token a ∧ TokensRun rest b

/-! ## Positions -/

def segment (path : List Character) (p q : ℕ) : List Character := (path.take q).drop p

section Segment

variable {path : List Character} {p q : ℕ}

theorem length_segment (hq : q ≤ path.length) : (segment path p q).length = q - p := by
  rw [segment, length_drop, length_take, Nat.min_eq_left hq]

theorem segment_append {m : ℕ} (hp : p ≤ m) (hm : m ≤ q) :
    segment path p q = segment path p m ++ segment path m q := by
  have htake : path.take m = (path.take q).take m := by rw [take_take, Nat.min_eq_left hm]
  have hdrop : (path.take q).drop p = ((path.take q).take m ++ (path.take q).drop m).drop p := by
    rw [take_append_drop]
  rw [segment, segment, segment, htake, hdrop]
  rcases Nat.lt_or_ge path.length m with hlong | hlong
  · have hnil : (path.take q).drop m = [] :=
      drop_eq_nil_of_le (by rw [length_take]; omega)
    rw [hnil, append_nil, append_nil]
  · exact drop_append_of_le_length (by
      rw [length_take, length_take]
      omega)

theorem segment_split {a b : List Character} (hp : p ≤ q) (hq : q ≤ path.length)
    (h : segment path p q = a ++ b) :
    p + a.length ≤ q ∧ segment path p (p + a.length) = a ∧ segment path (p + a.length) q = b := by
  have hlength := congrArg List.length h
  rw [length_segment hq, length_append] at hlength
  have hle : p + a.length ≤ q := by omega
  rw [segment_append (Nat.le_add_right p a.length) hle] at h
  obtain ⟨ha, hb⟩ := append_inj h (by rw [length_segment (hle.trans hq)]; omega)
  exact ⟨hle, ha, hb⟩

theorem segment_singleton {c : Character} :
    p ≤ q ∧ q ≤ path.length ∧ segment path p q = [c] ↔ q = p + 1 ∧ path[p]? = some c := by
  refine ⟨fun ⟨hp, hq, h⟩ => ?_, ?_⟩
  · have hlength := congrArg List.length h
    rw [length_segment hq, length_singleton] at hlength
    obtain rfl : q = p + 1 := by omega
    have hhead := congrArg (·[0]?) h
    rw [segment, getElem?_drop, getElem?_take_of_lt (by omega)] at hhead
    exact ⟨rfl, hhead⟩
  · rintro ⟨rfl, hc⟩
    obtain ⟨hp, rfl⟩ := List.getElem?_eq_some_iff.mp hc
    refine ⟨Nat.le_succ p, hp, ?_⟩
    rw [segment, drop_take, Nat.add_sub_cancel_left, drop_eq_getElem_cons hp,
      take_succ_cons, take_zero]

theorem segment_eq_nil (hp : p ≤ q) (hq : q ≤ path.length) : segment path p q = [] ↔ q = p := by
  rw [← length_eq_zero_iff, length_segment hq]
  omega

theorem getLast_segment (hp : p < q) (hq : q ≤ path.length) :
    (segment path p q).getLast? = path[q - 1]? := by
  obtain ⟨q, rfl⟩ : ∃ n, q = n + 1 := ⟨q - 1, by omega⟩
  obtain ⟨-, -, hlast⟩ := segment_singleton.mpr
    ⟨rfl, getElem?_eq_getElem (by omega : q < path.length)⟩
  rw [segment_append (Nat.le_of_lt_succ hp) (Nat.le_succ q), hlast, getLast?_append]
  simp [getElem?_eq_getElem (by omega : q < path.length)]

end Segment

/-! ## What the matcher reaches -/

theorem bit_map_range_iff {n p : ℕ} {f : ℕ → Bool} :
    bit ((List.range n).map f) p = true ↔ p < n ∧ f p = true := by
  refine ⟨bit_map_range, fun ⟨hp, hf⟩ => ?_⟩
  rw [bit, getD_eq_getElem?_getD, getElem?_map, getElem?_range hp]
  exact hf

/-- **One token reaches the ends of its runs.** -/
theorem bit_advance_iff {path : List Character} {current : List Bool} {token : Token} {q : ℕ} :
    bit (advance path current token) q = true ↔
      ∃ p, bit current p = true ∧ p ≤ q ∧ q ≤ path.length ∧
        TokenRun token (segment path p q) := by
  rw [advance, bit_map_range_iff, Nat.lt_succ_iff]
  cases token with
  | char c =>
    simp only [Bool.and_eq_true, bne_iff_ne, beq_iff_eq, TokenRun]
    refine ⟨fun ⟨hq, ⟨hne, hbit⟩, hc⟩ => ?_, ?_⟩
    · exact ⟨q - 1, hbit, segment_singleton.mpr ⟨by omega, hc⟩⟩
    · rintro ⟨p, hbit, hrun⟩
      obtain ⟨rfl, hc⟩ := segment_singleton.mp hrun
      exact ⟨hrun.2.1, ⟨by omega, hbit⟩, hc⟩
  | one =>
    simp only [Bool.and_eq_true, bne_iff_ne, TokenRun]
    refine ⟨fun ⟨hq, ⟨hne, hbit⟩, hc⟩ => ?_, ?_⟩
    · have hget := getElem?_eq_getElem (by omega : q - 1 < path.length)
      have hstep : q = q - 1 + 1 := by omega
      obtain ⟨hp, hq, hrun⟩ := segment_singleton.mpr ⟨hstep, hget⟩
      refine ⟨q - 1, hbit, hp, hq, _, fun heq => hc ?_, hrun⟩
      rw [hget, heq]
    · rintro ⟨p, hbit, hp, hq, c, hc, hrun⟩
      obtain ⟨rfl, hget⟩ := segment_singleton.mp ⟨hp, hq, hrun⟩
      refine ⟨hq, ⟨by omega, hbit⟩, fun heq => hc ?_⟩
      rw [Nat.add_sub_cancel, hget] at heq
      exact Option.some.inj heq
  | name =>
    simp only [any_eq_true, mem_range, Bool.and_eq_true, Bool.not_eq_true',
      contains_eq_mem, decide_eq_false_iff_not, TokenRun, Nat.lt_succ_iff]
    refine ⟨fun ⟨hq, p, hp, hbit, hrun⟩ => ⟨p, hbit, hp, hq, hrun⟩, ?_⟩
    rintro ⟨p, hbit, hp, hq, hrun⟩
    exact ⟨hq, p, hp, hbit, hrun⟩
  | any =>
    simp only [any_eq_true, mem_range, TokenRun, and_true, Nat.lt_succ_iff]
    refine ⟨fun ⟨hq, p, hp, hbit⟩ => ⟨p, hbit, hp, hq⟩, ?_⟩
    rintro ⟨p, hbit, hp, hq⟩
    exact ⟨hq, p, hp, hbit⟩
  | directories =>
    simp only [any_eq_true, mem_range, Bool.or_eq_true, Bool.and_eq_true, bne_iff_ne,
      beq_iff_eq, TokenRun]
    refine ⟨fun ⟨hq, h⟩ => ?_, ?_⟩
    · rcases h with hbit | ⟨⟨hne, hslash⟩, p, hp, hbit⟩
      · exact ⟨q, hbit, le_rfl, hq, .inl ((segment_eq_nil le_rfl hq).mpr rfl)⟩
      · exact ⟨p, hbit, hp.le, hq, .inr ((getLast_segment hp hq).trans hslash)⟩
    · rintro ⟨p, hbit, hp, hq, hnil | hlast⟩
      · obtain rfl := (segment_eq_nil hp hq).mp hnil
        exact ⟨hq, .inl hbit⟩
      · rcases Nat.lt_or_eq_of_le hp with hlt | rfl
        · rw [getLast_segment hlt hq] at hlast
          exact ⟨hq, .inr ⟨⟨by omega, hlast⟩, p, hlt, hbit⟩⟩
        · exact ⟨hq, .inl hbit⟩

/-- **A list of tokens reaches the ends of its runs.** -/
theorem bit_foldl_iff {path : List Character} {tokens : List Token} :
    ∀ {current : List Bool}, (∀ p, bit current p = true → p ≤ path.length) → ∀ {q : ℕ},
      bit (tokens.foldl (advance path) current) q = true ↔
        ∃ p, bit current p = true ∧ p ≤ q ∧ q ≤ path.length ∧
          TokensRun tokens (segment path p q) := by
  induction tokens with
  | nil =>
    intro current hcurrent q
    refine ⟨fun hbit => ?_, ?_⟩
    · have hq := hcurrent q hbit
      exact ⟨q, hbit, le_rfl, hq, (segment_eq_nil le_rfl hq).mpr rfl⟩
    · rintro ⟨p, hbit, hp, hq, hrun⟩
      rwa [foldl_nil, (segment_eq_nil hp hq).mp hrun]
  | cons token tokens ih =>
    intro current hcurrent q
    have hnext : ∀ p, bit (advance path current token) p = true → p ≤ path.length := by
      intro p hbit
      obtain ⟨-, -, -, hp, -⟩ := bit_advance_iff.mp hbit
      exact hp
    rw [foldl_cons, ih hnext]
    refine ⟨?_, ?_⟩
    · rintro ⟨m, hbit, hm, hq, hrest⟩
      obtain ⟨p, hbit, hp, -, hrun⟩ := bit_advance_iff.mp hbit
      exact ⟨p, hbit, hp.trans hm, hq, _, _, segment_append hp hm, hrun, hrest⟩
    · rintro ⟨p, hbit, hp, hq, a, b, hsplit, hrun, hrest⟩
      obtain ⟨hm, ha, hb⟩ := segment_split hp hq hsplit
      rw [← ha] at hrun
      rw [← hb] at hrest
      exact ⟨_, bit_advance_iff.mpr ⟨p, hbit, Nat.le_add_right _ _, hm.trans hq, hrun⟩, hm, hq,
        hrest⟩

theorem bit_startBits {path : List Character} {start p : ℕ} :
    bit (startBits path start) p = true ↔ p ≤ path.length ∧ p = start := by
  rw [startBits, bit_map_range_iff, Nat.lt_succ_iff, beq_iff_eq]

theorem matchesFrom_iff {rule : Rule} {path : List Character} {start : ℕ} {whole : Bool} :
    rule.matchesFrom path start whole = true ↔
      ∃ q, start ≤ q ∧ q ≤ path.length ∧ TokensRun rule.tokens (segment path start q) ∧
        (q = path.length ∨ (whole = false ∧ path[q]? = some [slash])) := by
  have hstart : ∀ p, bit (startBits path start) p = true → p ≤ path.length :=
    fun p hbit => (bit_startBits.mp hbit).1
  simp only [Rule.matchesFrom, any_eq_true, mem_range, Bool.and_eq_true, Bool.or_eq_true,
    beq_iff_eq, Bool.not_eq_true', bit_foldl_iff hstart]
  refine ⟨?_, ?_⟩
  · rintro ⟨q, -, ⟨p, hbit, hp, hq, hrun⟩, hend⟩
    obtain ⟨-, rfl⟩ := bit_startBits.mp hbit
    exact ⟨q, hp, hq, hrun, hend⟩
  · rintro ⟨q, hp, hq, hrun, hend⟩
    exact ⟨q, Nat.lt_succ_of_le hq, ⟨start, bit_startBits.mpr ⟨hp.trans hq, rfl⟩, hp, hq, hrun⟩,
      hend⟩

/-- **A rule matches where one of its runs stands between names.** -/
theorem matchesAny_iff {rule : Rule} {path : List Character} {whole : Bool} :
    rule.matchesAny path whole = true ↔
      ∃ before run after, path = before ++ (run ++ after) ∧
        (before = [] ∨ (¬rule.anchored = true ∧ before.getLast? = some [slash])) ∧
        TokensRun rule.tokens run ∧
        (after = [] ∨ (¬whole = true ∧ after.head? = some [slash])) := by
  have hstarts : ∀ start, start ∈ (0 :: if rule.anchored then [] else nameStarts path) ↔
      start ≤ path.length ∧ (path.take start = [] ∨
        (¬rule.anchored = true ∧ (path.take start).getLast? = some [slash])) := by
    intro start
    have hnames : start ∈ nameStarts path ↔ start ≤ path.length ∧ start ≠ 0 ∧
        path[start - 1]? = some [slash] := by
      simp only [nameStarts, mem_map, mem_filter, mem_range, beq_iff_eq]
      refine ⟨?_, fun ⟨hle, hne, hslash⟩ => ⟨start - 1, ⟨by omega, hslash⟩, by omega⟩⟩
      rintro ⟨i, ⟨hi, hslash⟩, rfl⟩
      exact ⟨hi, Nat.succ_ne_zero i, hslash⟩
    have hlast : start ≤ path.length → start ≠ 0 →
        (path.take start).getLast? = path[start - 1]? := by
      intro hle hne
      have hsegment := @getLast_segment path 0 start (Nat.pos_of_ne_zero hne) hle
      rwa [segment, drop_zero] at hsegment
    rw [mem_cons]
    rcases Nat.eq_zero_or_pos start with rfl | hpos
    · simp
    rw [take_eq_nil_iff]
    cases hanchored : rule.anchored with
    | true =>
      simp only [if_true, not_mem_nil, or_false, not_true_eq_false, false_and]
      refine ⟨fun h => absurd h hpos.ne', fun ⟨hle, h⟩ => ?_⟩
      rcases h with h | h
      · exact h
      · rw [h, length_nil] at hle
        omega
    | false =>
      simp only [Bool.false_eq_true, if_false, not_false_eq_true, true_and, hnames]
      refine ⟨?_, fun ⟨hle, h⟩ => ?_⟩
      · rintro (h | ⟨hle, hne, hslash⟩)
        · exact absurd h hpos.ne'
        · exact ⟨hle, .inr ((hlast hle hne).trans hslash)⟩
      · rcases h with (h | h) | h
        · exact absurd h hpos.ne'
        · rw [h, length_nil] at hle
          omega
        · exact .inr ⟨hle, hpos.ne', (hlast hle hpos.ne').symm.trans h⟩
  rw [Rule.matchesAny, any_eq_true]
  refine ⟨?_, ?_⟩
  · rintro ⟨start, hmem, hmatch⟩
    obtain ⟨hle, hbefore⟩ := (hstarts start).mp hmem
    obtain ⟨q, hp, hq, hrun, hend⟩ := matchesFrom_iff.mp hmatch
    refine ⟨path.take start, segment path start q, path.drop q, ?_, hbefore, hrun, ?_⟩
    · have hsplit := @segment_append path 0 q start (Nat.zero_le start) hp
      rw [segment, segment, drop_zero, drop_zero] at hsplit
      rw [← append_assoc, ← hsplit, take_append_drop]
    · rcases hend with rfl | ⟨hwhole, hslash⟩
      · exact .inl drop_length
      · exact .inr ⟨by rw [hwhole]; decide, by rw [head?_drop, hslash]⟩
  · rintro ⟨before, run, after, rfl, hbefore, hrun, hafter⟩
    have hlength : before.length ≤ (before ++ (run ++ after)).length := by simp
    have hsegment : segment (before ++ (run ++ after)) before.length (before.length + run.length)
        = run := by
      rw [segment, ← append_assoc, take_append_of_le_length (by simp),
        take_of_length_le (by simp), drop_left]
    refine ⟨before.length, (hstarts _).mpr ⟨hlength, by simpa using hbefore⟩, ?_⟩
    refine matchesFrom_iff.mpr ⟨before.length + run.length, Nat.le_add_right _ _, by simp,
      by rwa [hsegment], ?_⟩
    rcases hafter with rfl | ⟨hwhole, hslash⟩
    · exact .inl (by simp)
    · refine .inr ⟨by simpa using hwhole, ?_⟩
      rw [← append_assoc, ← length_append, getElem?_append_right le_rfl,
        Nat.sub_self, ← head?_eq_getElem?]
      exact hslash

/-! ## What a text says -/

/-- `**/` stands for directories exactly behind a text that ends where a name begins. -/
theorem opensName_literal (seen : List Character) (c : Character) :
    opensName (some (.char c)) = true ↔ symbols.Boundary (seen ++ [c]) := by
  rw [Symbols.boundary_concat]
  exact beq_iff_eq

/-- **The tokens of a text stand for what the text does.** -/
theorem tokensRun_iff {last : Option Token} {pattern : List Character} :
    ∀ {seen before run : List Character}, (opensName last = true ↔ symbols.Boundary seen) →
      (symbols.Boundary seen → symbols.Boundary before) →
      (TokensRun (parseTokens last pattern) run ↔ GlobRun symbols seen before pattern run) := by
  have hstar : ∀ {seen : List Character}, ¬symbols.Boundary (seen ++ [[star]]) :=
    fun h => absurd (Symbols.boundary_concat.mp h) (by decide)
  have hquestion : ∀ {seen : List Character}, ¬symbols.Boundary (seen ++ [[question]]) :=
    fun h => absurd (Symbols.boundary_concat.mp h) (by decide)
  have hclosed : ∀ {last : Option Token} {text : List Character}, opensName last = false →
      ¬symbols.Boundary text → (opensName last = true ↔ symbols.Boundary text) :=
    fun hlast htext => ⟨fun h => absurd h (by rw [hlast]; decide), fun h => absurd h htext⟩
  -- one case for each form of a pattern, told apart as the parser tells them
  induction last, pattern using parseTokens.induct with
  | case1 last =>
    intro seen before run _ _
    rw [parseTokens, GlobRun.nil_iff]
    rfl
  | case2 last =>
    intro seen before run _ _
    have hname := @GlobRun.name_iff _ symbols seen before [] run (by simp)
    refine Iff.trans ?_ hname.symm
    refine exists_congr fun a => exists_congr fun b => ?_
    rw [GlobRun.nil_iff]
    exact and_left_comm
  | case3 last =>
    intro seen before run _ _
    have hany := @GlobRun.any_iff _ symbols seen before [] run (by simp)
    refine Iff.trans ?_ hany.symm
    refine exists_congr fun a => exists_congr fun b => and_congr_right fun _ => ?_
    rw [GlobRun.nil_iff]
    exact Iff.of_eq (true_and _)
  | case4 last first later hopen ih =>
    intro seen before run hseen hbefore
    obtain ⟨hlast, hfirst⟩ := Bool.and_eq_true_iff.mp hopen
    obtain rfl : first = [slash] := beq_iff_eq.mp hfirst
    have hseen := hseen.mp hlast
    have hbefore := hbefore hseen
    have htokens : parseTokens last ([star] :: [star] :: [slash] :: later)
        = .directories :: parseTokens (some .directories) later := by
      rw [parseTokens.eq_def]
      simp [hlast]
    rw [htokens]
    refine Iff.trans ?_ (GlobRun.directories_iff hseen hbefore).symm
    refine exists_congr fun a => exists_congr fun b => ?_
    rw [and_left_comm]
    refine and_congr_right fun ha => and_congr_right fun _ => ?_
    exact ih ⟨fun _ => hseen.append (.inr rfl), fun _ => rfl⟩ fun _ => hbefore.append ha
  | case5 last first later hopen ih =>
    intro seen before run hseen _
    have hrest : ¬(symbols.Boundary seen ∧ (first :: later).head? = some symbols.slash) := by
      rintro ⟨hboundary, hslash⟩
      refine hopen (Bool.and_eq_true_iff.mpr ⟨hseen.mpr hboundary, ?_⟩)
      exact beq_iff_eq.mpr (Option.some.inj hslash)
    have htokens : parseTokens last ([star] :: [star] :: first :: later)
        = .any :: parseTokens (some .any) (first :: later) := by
      rw [parseTokens.eq_def]
      simp [hopen]
    rw [htokens]
    refine Iff.trans ?_ (GlobRun.any_iff hrest).symm
    refine exists_congr fun a => exists_congr fun b => and_congr_right fun _ => ?_
    have hstars : ¬symbols.Boundary (seen ++ [[star], [star]]) := by
      rw [append_cons]
      exact hstar
    exact (Iff.of_eq (true_and _)).trans (ih (hclosed rfl hstars) fun h => absurd h hstars)
  | case6 last first later hfirst ih =>
    intro seen before run _ _
    have htokens : parseTokens last ([star] :: first :: later)
        = .name :: parseTokens (some .name) (first :: later) := by
      rw [parseTokens.eq_def]
      simp [hfirst]
    rw [htokens]
    have hrest : (first :: later).head? ≠ some symbols.star :=
      fun h => hfirst (Option.some.inj h)
    refine Iff.trans ?_ (GlobRun.name_iff hrest).symm
    refine exists_congr fun a => exists_congr fun b => ?_
    rw [and_left_comm]
    refine and_congr_right fun _ => and_congr_right fun _ => ?_
    exact ih (hclosed rfl hstar) fun h => absurd h hstar
  | case7 last rest hne ih =>
    intro seen before run _ _
    have htokens : parseTokens last ([question] :: rest)
        = .one :: parseTokens (some .one) rest := by
      rw [parseTokens.eq_def]
      simp [hne]
    rw [htokens]
    refine Iff.trans ?_ GlobRun.question_iff.symm
    refine ⟨?_, ?_⟩
    · rintro ⟨-, b, rfl, ⟨c, hc, rfl⟩, hb⟩
      exact ⟨c, b, hc, rfl, (ih (hclosed rfl hquestion) fun h => absurd h hquestion).mp hb⟩
    · rintro ⟨c, b, hc, rfl, hb⟩
      exact ⟨[c], b, rfl, ⟨c, hc, rfl⟩,
        (ih (hclosed rfl hquestion) fun h => absurd h hquestion).mpr hb⟩
  | case8 last c rest hne hnq ih =>
    intro seen before run _ _
    have htokens : parseTokens last (c :: rest)
        = .char c :: parseTokens (some (.char c)) rest := by
      rw [parseTokens.eq_def]
      simp [hne, hnq]
    rw [htokens]
    refine Iff.trans ?_ (GlobRun.literal_iff hne hnq).symm
    have hbefore : symbols.Boundary (seen ++ [c]) → symbols.Boundary (before ++ [c]) :=
      fun h => Symbols.boundary_concat.mpr (Symbols.boundary_concat.mp h)
    refine ⟨?_, ?_⟩
    · rintro ⟨-, b, rfl, rfl, hb⟩
      exact ⟨b, rfl, (ih (opensName_literal seen c) hbefore).mp hb⟩
    · rintro ⟨b, rfl, hb⟩
      exact ⟨[c], b, rfl, rfl, (ih (opensName_literal seen c) hbefore).mpr hb⟩

/-! ## Rules -/

/-- A pattern with a leading or an inner slash: one that is not its last character. -/
def Anchored (pattern : List ℕ) : Prop := slash ∈ (withoutFirst bang pattern).dropLast

theorem anchored_iff (pattern : List ℕ) : (parse pattern).anchored = true ↔ Anchored pattern := by
  rw [Anchored, show (parse pattern).anchored = (bodyOf pattern).contains slash from rfl, bodyOf,
    withoutLast, contains_iff_mem]
  generalize withoutFirst bang pattern = text
  split_ifs with hlast
  · rfl
  · rcases eq_nil_or_concat text with rfl | ⟨text, c, rfl⟩
    · rfl
    · have hc : slash ≠ c := fun h => hlast (by simp [h])
      simp [hc]

/-- What the text of a rule covers: without its `!`, one slash at its end and one at its start,
which of these are slashes saying where it may begin. -/
def Covers (pattern path : List ℕ) (whole : Prop) : Prop :=
  symbols.Covers (Anchored pattern) whole (chars (withoutFirst slash (bodyOf pattern)))
    (chars (trim path))

/-- **A rule matches what its text covers**, in both modes. -/
theorem matchesAny_declared (pattern path : List ℕ) (whole : Bool) :
    (parse pattern).matchesAny (chars (trim path)) whole = true ↔
      Covers pattern path (whole = true) := by
  rw [matchesAny_iff, Covers, Symbols.Covers]
  refine exists_congr fun before => exists_congr fun run => exists_congr fun after => ?_
  rw [anchored_iff]
  refine and_congr_right fun _ => and_congr_right fun hbefore => and_congr_left fun _ => ?_
  have hboundary : symbols.Boundary before := hbefore.imp_right And.right
  exact tokensRun_iff ⟨fun _ => .inl rfl, fun _ => rfl⟩ fun _ => hboundary

/-- `Rules::of`, and the rules any file's lines parse to. -/
def rulesOf (patterns : List (List ℕ)) : List Rule := patterns.map parse

/-- `Rules::matching`: the deciding rule for an absolute path, if any. -/
def matching (rules : List Rule) (path : List ℕ) : Option Rule :=
  rules.foldl (fun hit rule =>
    if rule.matchesAny (chars (trim path)) false then
      if rule.negated then none else some rule
    else hit) none

theorem exists_last_concat {β : Type} {C Q : β → Prop} (xs : List β) (last : β) :
    (∃ earlier x later, xs ++ [last] = earlier ++ x :: later ∧ C x ∧ (∀ y ∈ later, ¬C y) ∧ Q x) ↔
      C last ∧ Q last ∨ ¬C last ∧
        ∃ earlier x later, xs = earlier ++ x :: later ∧ C x ∧ (∀ y ∈ later, ¬C y) ∧ Q x := by
  refine ⟨?_, ?_⟩
  · rintro ⟨earlier, x, later, heq, hx, hlater, hQ⟩
    rcases eq_nil_or_concat later with rfl | ⟨later, y, rfl⟩
    · obtain ⟨-, hlast⟩ := append_inj' heq rfl
      cases hlast
      exact .inl ⟨hx, hQ⟩
    · rw [concat_eq_append] at heq hlater
      rw [← cons_append, ← append_assoc] at heq
      obtain ⟨hxs, hlast⟩ := append_inj' heq rfl
      cases hlast
      exact .inr ⟨hlater last (by simp), earlier, x, later, hxs, hx,
        fun z hz => hlater z (by simp [hz]), hQ⟩
  · rintro (⟨hlast, hQ⟩ | ⟨hlast, earlier, x, later, rfl, hx, hlater, hQ⟩)
    · exact ⟨xs, last, [], rfl, hlast, by simp, hQ⟩
    · refine ⟨earlier, x, later ++ [last], by simp, hx, fun y hy => ?_, hQ⟩
      rcases mem_append.mp hy with hy | hy
      · exact hlater y hy
      · rwa [mem_singleton.mp hy]

/-- **The last pattern that covers a path decides**: it hits unless it is negated. -/
theorem matching_eq_some (patterns : List (List ℕ)) (path : List ℕ) (rule : Rule) :
    matching (rulesOf patterns) path = some rule ↔
      ∃ earlier pattern later, patterns = earlier ++ pattern :: later ∧
        Covers pattern path False ∧ (∀ other ∈ later, ¬Covers other path False) ∧
        (pattern.head? ≠ some bang ∧ rule = parse pattern) := by
  have hcovers : ∀ pattern, (parse pattern).matchesAny (chars (trim path)) false = true ↔
      Covers pattern path False := by
    intro pattern
    rw [matchesAny_declared, Bool.false_eq_true]
  rw [rulesOf]
  induction patterns using List.reverseRecOn with
  | nil => simp [matching]
  | append_singleton patterns last ih =>
    have hnegated : (parse last).negated = true ↔ last.head? = some bang := beq_iff_eq
    have hstep : matching ((patterns ++ [last]).map parse) path =
        if (parse last).matchesAny (chars (trim path)) false then
          if (parse last).negated then none else some (parse last)
        else matching (patterns.map parse) path := by
      rw [matching, map_append, foldl_append]
      rfl
    have hrest : matching (patterns.map parse) path = some rule ↔ _ := ih
    rw [hstep, exists_last_concat, ← hrest, ← hcovers, ne_eq, ← hnegated]
    by_cases hmatch : (parse last).matchesAny (chars (trim path)) false = true
    · rw [if_pos hmatch]
      by_cases hneg : (parse last).negated = true
      · simp [hmatch, hneg]
      · rw [if_neg hneg, Option.some.injEq]
        refine ⟨fun h => .inl ⟨hmatch, hneg, h.symm⟩, ?_⟩
        rintro (⟨-, -, h⟩ | ⟨h, -⟩)
        · exact h.symm
        · exact absurd hmatch h
    · simp [hmatch]

/-- **The matcher agrees with the declared meaning**, for every pattern, path and list of
patterns: a pattern matches, a path or one of its parents, what its text covers, and the last one
that does decides. -/
theorem matching_declared (patterns : List (List ℕ)) (pattern path : List ℕ) :
    (∀ whole, (parse pattern).matchesAny (chars (trim path)) whole = true ↔
      Covers pattern path (whole = true)) ∧
    ∀ rule, matching (rulesOf patterns) path = some rule ↔
      ∃ earlier pattern later, patterns = earlier ++ pattern :: later ∧
        Covers pattern path False ∧ (∀ other ∈ later, ¬Covers other path False) ∧
        (pattern.head? ≠ some bang ∧ rule = parse pattern) :=
  ⟨matchesAny_declared pattern path, matching_eq_some patterns path⟩

/-! ### A name of two bytes

`?` is declared, and read, as one character, not as one byte. -/

/-- `/`, `*` and `?` as bytes. -/
def byteSymbols : Symbols ℕ where
  slash := slash
  star := star
  question := question
  star_ne := by decide
  question_ne := by decide
  ne := by decide

def CoversBytes (pattern path : List ℕ) (whole : Prop) : Prop :=
  byteSymbols.Covers (Anchored pattern) whole (withoutFirst slash (bodyOf pattern)) (trim path)

/-- **`?` matches a character of two bytes**, `/é`. -/
theorem question_matches_character :
    matching (rulesOf [[question]]) [slash, 0xC3, 0xA9] = some (parse [question]) ∧
      ¬CoversBytes [question] [slash, 0xC3, 0xA9] False := by
  refine ⟨by rfl, ?_⟩
  rintro ⟨before, run, after, hpath, hbefore, hrun, hafter⟩
  have hquestion : withoutFirst slash (bodyOf [question]) = [byteSymbols.question] := by decide
  rw [hquestion] at hrun
  obtain ⟨x, run', -, rfl, hnil⟩ := GlobRun.question_iff.mp hrun
  obtain rfl := GlobRun.nil_iff.mp hnil
  have htrim : trim [slash, 0xC3, 0xA9] = [0xC3, 0xA9] := by decide
  rw [htrim] at hpath
  -- one byte lies before or behind the run, and no slash parts it from the run
  rcases before with _ | ⟨b, before⟩
  · obtain ⟨rfl, rfl⟩ : x = 0xC3 ∧ after = [0xA9] := by simpa [eq_comm] using hpath
    rcases hafter with h | ⟨-, h⟩
    · cases h
    · exact absurd h (by decide)
  · rcases before with _ | ⟨c, before⟩
    · obtain ⟨rfl, -⟩ : b = 0xC3 ∧ x = 0xA9 ∧ after = [] := by simpa [eq_comm] using hpath
      rcases hbefore with h | ⟨-, h⟩
      · cases h
      · exact absurd h (by decide)
    · have hlength := congrArg List.length hpath
      simp at hlength

end LayerFs.Glob
