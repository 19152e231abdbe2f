import Mathlib.Data.List.Infix

/-! Glob patterns over bytes as Redis reads them. The order of bytes in a range is a parameter. -/
namespace Fries.Glob

section Reading

inductive Item
  | single (c : UInt8)
  | range (first last : UInt8)
  deriving DecidableEq, Repr

inductive Token
  | star
  | any
  | literal (c : UInt8)
  | oneOf (negated : Bool) (items : List Item)
  deriving DecidableEq, Repr

/-- What has been read of a token: nothing, a backslash, or an open bracket with the items so far
and possibly a caret still to come, a backslash, or the start of a range. -/
inductive Mode
  | plain
  | escape
  | opened
  | bracket (negated : Bool) (items : List Item)
  | bracketEscape (negated : Bool) (items : List Item)
  | started (negated : Bool) (items : List Item) (c : UInt8)
  | dashed (negated : Bool) (items : List Item) (c : UInt8)
  deriving DecidableEq, Repr

def asterisk : UInt8 := 42

def dash : UInt8 := 45

def questionMark : UInt8 := 63

def openBracket : UInt8 := 91

def backslash : UInt8 := 92

def closeBracket : UInt8 := 93

def caret : UInt8 := 94

def plainStep (c : UInt8) : List Token × Mode :=
  if c = asterisk then ([.star], .plain)
  else if c = questionMark then ([.any], .plain)
  else if c = openBracket then ([], .opened)
  else if c = backslash then ([], .escape)
  else ([.literal c], .plain)

def bracketStep (negated : Bool) (items : List Item) (c : UInt8) : List Token × Mode :=
  if c = backslash then ([], .bracketEscape negated items)
  else if c = closeBracket then ([.oneOf negated items], .plain)
  else ([], .started negated items c)

/-- The tokens that a byte completes, and what has been read after it. -/
def step : Mode → UInt8 → List Token × Mode
  | .plain, c => plainStep c
  | .escape, c => ([.literal c], .plain)
  | .opened, c => if c = caret then ([], .bracket true []) else bracketStep false [] c
  | .bracket negated items, c => bracketStep negated items c
  | .bracketEscape negated items, c => ([], .bracket negated (items ++ [.single c]))
  | .started negated items first, c =>
    if c = dash then ([], .dashed negated items first)
    else bracketStep negated (items ++ [.single first]) c
  | .dashed negated items first, c => ([], .bracket negated (items ++ [.range first c]))

/-- The tokens left at the end of a pattern, where a class need not be closed. -/
def Mode.finish : Mode → List Token
  | .plain => []
  | .escape => [.literal backslash]
  | .opened => [.oneOf false []]
  | .bracket negated items => [.oneOf negated items]
  | .bracketEscape negated items => [.oneOf negated (items ++ [.single backslash])]
  | .started negated items c => [.oneOf negated (items ++ [.single c])]
  | .dashed negated items c => [.oneOf negated (items ++ [.single c, .single dash])]

def parse : Mode → List UInt8 → List Token
  | m, [] => m.finish
  | m, c :: pattern => (step m c).1 ++ parse (step m c).2 pattern

end Reading

section Matching

variable (rank : UInt8 → Int)

def Item.has (c : UInt8) : Item → Bool
  | .single d => c == d
  | .range first last =>
    (rank first ≤ rank c && rank c ≤ rank last) || (rank last ≤ rank c && rank c ≤ rank first)

/-- Whether a token other than `star` stands for a byte. -/
def Token.takes (c : UInt8) : Token → Bool
  | .star => false
  | .any => true
  | .literal d => c == d
  | .oneOf negated items => (items.any (Item.has rank c)) != negated

def matchTokens : List Token → List UInt8 → Bool
  | [], text => text.isEmpty
  | .star :: tokens, text => text.tails.any (matchTokens tokens)
  | token :: tokens, text =>
    match text with
    | [] => false
    | c :: text => token.takes rank c && matchTokens tokens text

/-- Whether a text matches a pattern. -/
def accepts (pattern text : List UInt8) : Bool := matchTokens rank (parse .plain pattern) text

variable {rank} {tokens : List Token} {text : List UInt8}

theorem matchTokens_star : matchTokens rank (.star :: tokens) text = true ↔
      ∃ rest, rest <:+ text ∧ matchTokens rank tokens rest = true := by
  simp [matchTokens]

theorem matchTokens_one {token : Token} (htoken : token ≠ .star) :
    matchTokens rank (token :: tokens) text = true ↔
      ∃ c rest, text = c :: rest ∧ token.takes rank c = true ∧
        matchTokens rank tokens rest = true := by
  cases token with
  | star => exact absurd rfl htoken
  | any | literal | oneOf => cases text <;> simp [matchTokens]

end Matching

section Lengths

variable {rank : UInt8 → Int} {m : Mode}

/-- The number of tokens that stand for one byte. -/
def singles (tokens : List Token) : Nat := tokens.countP (· ≠ .star)

/-- What a match leaves when nothing is put in the place of a star. -/
theorem match_of_singles {tokens : List Token} :
    ∀ {text : List UInt8}, matchTokens rank tokens text = true →
      ∃ short, short.length = singles tokens ∧ matchTokens rank tokens short = true := by
  induction tokens with
  | nil => exact fun _ => ⟨[], rfl, rfl⟩
  | cons token tokens ih =>
    intro text h
    by_cases htoken : token = .star
    · subst htoken
      obtain ⟨rest, -, hrest⟩ := matchTokens_star.mp h
      obtain ⟨short, hlen, hshort⟩ := ih hrest
      exact ⟨short, by simpa [singles] using hlen,
        matchTokens_star.mpr ⟨short, List.suffix_refl _, hshort⟩⟩
    · obtain ⟨c, rest, -, hc, hrest⟩ := (matchTokens_one htoken).mp h
      obtain ⟨short, hlen, hshort⟩ := ih hrest
      exact ⟨c :: short, by simpa [singles, htoken] using hlen,
        (matchTokens_one htoken).mpr ⟨c, short, rfl, hc, hshort⟩⟩

/-- How many bytes the token that is being read will stand for. -/
def Mode.weight : Mode → Nat
  | .plain => 0
  | _ => 1

theorem singles_finish (m : Mode) : singles m.finish = m.weight := by
  cases m <;> rfl

theorem bracketStep_weight (negated : Bool) (items : List Item) (c : UInt8) :
    singles (bracketStep negated items c).1 + (bracketStep negated items c).2.weight = 1 := by
  unfold bracketStep
  split_ifs <;> rfl

/-- A byte inside a token adds nothing to what the token stands for. -/
theorem step_weight_inside (hm : m ≠ .plain) (c : UInt8) :
    singles (step m c).1 + (step m c).2.weight = 1 := by
  cases m with
  | plain => exact absurd rfl hm
  | escape | bracketEscape | dashed => rfl
  | bracket negated items => exact bracketStep_weight negated items c
  | opened =>
    simp only [step]
    split_ifs
    · rfl
    · exact bracketStep_weight false [] c
  | started negated items first =>
    simp only [step]
    split_ifs
    · rfl
    · exact bracketStep_weight negated _ c

theorem plainStep_weight (c : UInt8) :
    singles (plainStep c).1 + (plainStep c).2.weight = if c = asterisk then 0 else 1 := by
  unfold plainStep
  split_ifs <;> rfl

theorem step_weight (m : Mode) (c : UInt8) :
    singles (step m c).1 + (step m c).2.weight ≤ m.weight + 1 := by
  by_cases hm : m = .plain
  · subst hm
    have hplain := plainStep_weight c
    change singles (plainStep c).1 + (plainStep c).2.weight ≤ 0 + 1
    split_ifs at hplain <;> omega
  · have hinside := step_weight_inside hm c
    omega

theorem singles_parse_cons (m : Mode) (c : UInt8) (pattern : List UInt8) :
    singles (parse m (c :: pattern)) =
      singles (step m c).1 + singles (parse (step m c).2 pattern) :=
  List.countP_append

theorem singles_parse_le (pattern : List UInt8) :
    ∀ m : Mode, singles (parse m pattern) ≤ m.weight + pattern.length := by
  induction pattern with
  | nil => exact fun m => (singles_finish m).le
  | cons c pattern ih =>
    intro m
    have hstep := step_weight m c
    have hrest := ih (step m c).2
    rw [singles_parse_cons, List.length_cons]
    omega

theorem singles_parse_inside (hm : m ≠ .plain) (c : UInt8) (pattern : List UInt8) :
    singles (parse m (c :: pattern)) ≤ (c :: pattern).length := by
  have hstep := step_weight_inside hm c
  have hrest := singles_parse_le pattern (step m c).2
  rw [singles_parse_cons, List.length_cons]
  omega

/-- A star at the end never makes the shortest match longer. -/
theorem singles_parse_star (pattern : List UInt8) :
    ∀ m : Mode, singles (parse m (pattern ++ [asterisk])) ≤ singles (parse m pattern) := by
  induction pattern with
  | nil =>
    intro m
    change singles (parse m [asterisk]) ≤ singles m.finish
    rw [singles_parse_cons, singles_finish]
    change singles (step m asterisk).1 + singles (step m asterisk).2.finish ≤ m.weight
    rw [singles_finish]
    cases m with
    | plain => exact (plainStep_weight asterisk).le
    | _ => exact (step_weight_inside (by simp) asterisk).le
  | cons c pattern ih =>
    intro m
    have hrest := ih (step m c).2
    rw [List.cons_append, singles_parse_cons, singles_parse_cons]
    omega

end Lengths

section Prefixes

variable {rank : UInt8 → Int} {text start : List UInt8} {c : UInt8}

/-- A byte that stands for itself in every place outside brackets. -/
def Ordinary (c : UInt8) : Prop :=
  c ≠ asterisk ∧ c ≠ questionMark ∧ c ≠ openBracket ∧ c ≠ backslash

instance (c : UInt8) : Decidable (Ordinary c) := inferInstanceAs (Decidable (_ ∧ _))

/-- A byte that is a token of its own outside brackets. -/
def OneByte (c : UInt8) : Prop := c ≠ asterisk ∧ c ≠ openBracket ∧ c ≠ backslash

theorem Ordinary.oneByte (h : Ordinary c) : OneByte c := ⟨h.1, h.2.2⟩

def oneByteToken (c : UInt8) : Token := if c = questionMark then .any else .literal c

theorem plainStep_oneByte (h : OneByte c) : plainStep c = ([oneByteToken c], .plain) := by
  obtain ⟨hstar, hbracket, hslash⟩ := h
  simp only [plainStep, oneByteToken, hstar, hbracket, hslash, if_false]
  split_ifs <;> rfl

theorem plainStep_inside (h : ¬ OneByte c) (hstar : c ≠ asterisk) :
    (plainStep c).1 = [] ∧ (plainStep c).2 ≠ .plain := by
  have hinside : c = openBracket ∨ c = backslash := by
    simp only [OneByte, not_and_or, not_not] at h
    exact h.resolve_left hstar
  rcases hinside with rfl | rfl <;> exact ⟨rfl, by decide⟩

theorem parse_oneByte (h : ∀ c ∈ start, OneByte c) :
    parse .plain (start ++ [asterisk]) = start.map oneByteToken ++ [.star] := by
  induction start with
  | nil => rfl
  | cons c start ih =>
    have hstep : step .plain c = ([oneByteToken c], .plain) :=
      plainStep_oneByte (h c (List.mem_cons_self ..))
    rw [List.cons_append, parse, hstep, ih fun d hd => h d (List.mem_cons_of_mem c hd)]
    rfl

theorem match_star : matchTokens rank [.star] text = true :=
  matchTokens_star.mpr ⟨[], List.nil_suffix, rfl⟩

theorem oneByteToken_ne_star (c : UInt8) : oneByteToken c ≠ .star := by
  unfold oneByteToken
  split_ifs <;> simp

theorem match_ordinary (h : ∀ c ∈ start, Ordinary c) :
    ∀ {text : List UInt8},
      matchTokens rank (start.map oneByteToken ++ [.star]) text = true ↔ start <+: text := by
  induction start with
  | nil => exact fun {text} => iff_of_true match_star List.nil_prefix
  | cons c start ih =>
    intro text
    have hc : oneByteToken c = .literal c := if_neg (h c (List.mem_cons_self ..)).2.1
    have hrest := @ih fun d hd => h d (List.mem_cons_of_mem c hd)
    rw [List.map_cons, List.cons_append, matchTokens_one (oneByteToken_ne_star c), hc]
    constructor
    · rintro ⟨d, rest, rfl, hd, hmatch⟩
      obtain rfl : d = c := by simpa [Token.takes] using hd
      exact List.prefix_cons_inj d |>.mpr (hrest.mp hmatch)
    · rintro ⟨rest, rfl⟩
      exact ⟨c, start ++ rest, rfl, by simp [Token.takes], hrest.mpr ⟨rest, rfl⟩⟩

/-- The text with another byte in the place of each question mark. -/
def fill (start : List UInt8) : List UInt8 :=
  start.map fun c => if c = questionMark then asterisk else c

theorem match_fill (start : List UInt8) :
    matchTokens rank (start.map oneByteToken ++ [.star]) (fill start) = true := by
  induction start with
  | nil => exact match_star
  | cons c start ih =>
    rw [List.map_cons, List.cons_append, matchTokens_one (oneByteToken_ne_star c)]
    refine ⟨_, fill start, rfl, ?_, ih⟩
    by_cases hc : c = questionMark <;> simp [oneByteToken, Token.takes, hc]

/-- A star, a bracket or a backslash before the end makes some match shorter than the pattern. -/
theorem singles_parse_lt (hlast : ∀ c ∈ start.getLast?, Ordinary c) (h : ∃ c ∈ start, ¬ OneByte c) :
    singles (parse .plain start) < start.length := by
  induction start with
  | nil => simp at h
  | cons c start ih =>
    rw [singles_parse_cons, List.length_cons]
    by_cases hc : OneByte c
    · have hstep : step .plain c = ([oneByteToken c], .plain) := plainStep_oneByte hc
      have hone : singles [oneByteToken c] = 1 := by simp [singles, oneByteToken_ne_star]
      have hrest : singles (parse .plain start) < start.length :=
        ih (fun d hd => hlast d (List.mem_getLast?_cons hd)) (by simpa [hc] using h)
      rw [hstep]
      change singles [oneByteToken c] + singles (parse .plain start) < _
      omega
    · by_cases hstar : c = asterisk
      · subst hstar
        have hle : singles (parse .plain start) ≤ 0 + start.length :=
          singles_parse_le start .plain
        change 0 + singles (parse .plain start) < _
        omega
      · obtain ⟨hnone, hinside⟩ := plainStep_inside hc hstar
        cases start with
        | nil => exact absurd (hlast c rfl).oneByte hc
        | cons d start =>
          have hle := singles_parse_inside hinside d start
          change singles (plainStep c).1 + singles (parse (plainStep c).2 (d :: start)) < _
          rw [hnone]
          change 0 + _ < _
          omega

/-- A pattern that ends with a star accepts the texts that begin with what is before the star
exactly if that has no byte with a meaning of its own. -/
theorem accepts_prefix_iff (hlast : ∀ c ∈ start.getLast?, Ordinary c) :
    (∀ text, accepts rank (start ++ [asterisk]) text = true ↔ start <+: text) ↔
      ∀ c ∈ start, Ordinary c := by
  constructor
  · intro h
    have hone : ∀ c ∈ start, OneByte c := by
      by_contra hnot
      have hlt := singles_parse_lt hlast (by simpa using hnot)
      have hle := singles_parse_star start .plain
      obtain ⟨short, hlen, hshort⟩ := match_of_singles ((h start).mpr (List.prefix_refl start))
      have hpre := ((h short).mp hshort).length_le
      omega
    intro c hc
    have hfill : start <+: fill start := by
      refine (h _).mp ?_
      rw [accepts, parse_oneByte hone]
      exact match_fill start
    have hsame : start = fill start := hfill.eq_of_length (by simp [fill])
    have hne : c ≠ questionMark := by
      rintro rfl
      rw [hsame] at hc
      obtain ⟨d, -, hd⟩ := List.mem_map.mp hc
      split_ifs at hd with hmark
      · cases hd
      · exact hmark hd
    exact ⟨(hone c hc).1, hne, (hone c hc).2⟩
  · intro h text
    rw [accepts, parse_oneByte fun c hc => (h c hc).oneByte]
    exact match_ordinary h

end Prefixes

end Fries.Glob
