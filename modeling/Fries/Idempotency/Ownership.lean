import Fries.Idempotency.Ledger

/-! Who owns a claim, read off the history of calls and answers alone. -/
namespace Fries.Idempotency

variable {key token : String} {now last : Int} {e : Event Call Reply} {h : List (Event Call Reply)}
  {l : Ledger} {result : Bytes}

/-- The event grants `token` a claim on `key` that is unexpired at `now`. -/
def Acquires (key token : String) (now : Int) : Event Call Reply → Prop
  | ⟨at', .begin _ r, .begin (.ok ⟨.acquired, _⟩)⟩ =>
    r.key = key ∧ r.token = token ∧ now < at' + r.ttl
  | _ => False

/-- The event completes or aborts a claim on `key` by `token`. -/
def Settles (key token : String) : Event Call Reply → Prop
  | ⟨_, .complete _ r, .complete (.ok _)⟩ => r.key = key ∧ r.token = token
  | ⟨_, .abort _ r, .abort (.ok _)⟩ => r.key = key ∧ r.token = token
  | _ => False

/-- The event completes `key` with `result`, whose time to live has not elapsed at `now`. -/
def Completes (key : String) (result : Bytes) (now : Int) : Event Call Reply → Prop
  | ⟨at', .complete _ r, .complete (.ok _)⟩ => r.key = key ∧ r.result = result ∧ now < at' + r.ttl
  | _ => False

/-- The fingerprint of the last call of `Begin` that acquired `key`. -/
def fingerprint (key : String) (h : List (Event Call Reply)) : Option String :=
  h.foldl (fun last e => match e.request, e.reply with
    | .begin _ r, .begin (.ok ⟨.acquired, _⟩) => if r.key = key then some r.fingerprint else last
    | _, _ => last) none

/-- `token` was granted `key`, the claim is unexpired, and it was not settled since. -/
def Owns (h : List (Event Call Reply)) (key token : String) (now : Int) : Prop :=
  ∃ before e after, h = before ++ e :: after ∧ Acquires key token now e ∧
    ∀ f ∈ after, ¬ Settles key token f

/-- The answer neither grants nor settles anything. -/
def Reply.Quiet : Reply → Prop
  | .begin (.ok ⟨.acquired, _⟩) | .complete (.ok _) | .abort (.ok _) => False
  | _ => True

attribute [local simp] Reply.Quiet

theorem not_acquires_of_quiet (h : e.reply.Quiet) : ¬ Acquires key token now e := by
  unfold Acquires
  split <;> simp_all

theorem not_settles_of_quiet (h : e.reply.Quiet) : ¬ Settles key token e := by
  unfold Settles
  split <;> simp_all

theorem not_completes_of_quiet (h : e.reply.Quiet) : ¬ Completes key result now e := by
  unfold Completes
  split <;> simp_all

theorem owns_append : Owns (h ++ [e]) key token now ↔
    Acquires key token now e ∨ (Owns h key token now ∧ ¬ Settles key token e) := by
  constructor
  · rintro ⟨before, f, after, heq, hf, hafter⟩
    obtain rfl | ⟨rest, x, rfl⟩ := List.eq_nil_or_concat' after
    · obtain ⟨-, rfl⟩ : h = before ∧ e = f := by simpa using heq
      exact .inl hf
    · have hsnoc : h ++ [e] = (before ++ f :: rest) ++ [x] := by simpa using heq
      obtain ⟨rfl, hx⟩ := List.append_inj' hsnoc rfl
      obtain rfl : e = x := by simpa using hx
      exact .inr ⟨⟨before, f, rest, rfl, hf, fun g hg => hafter g (by simp [hg])⟩,
        hafter e (by simp)⟩
  · rintro (he | ⟨⟨before, f, after, rfl, hf, hafter⟩, he⟩)
    · exact ⟨h, e, [], rfl, he, by simp⟩
    · refine ⟨before, f, after ++ [e], by simp, hf, ?_⟩
      intro g hg
      rcases List.mem_append.mp hg with hg | hg
      · exact hafter g hg
      · rwa [List.mem_singleton.mp hg]

/-- Everything one call can do to the table. -/
theorem step_cases (l : Ledger) (now : Int) (call : Call) :
    (∃ ctx r, call = .begin ctx r ∧ l.live now r.key = none ∧ l.step now call =
      (.begin (.ok ⟨.acquired, []⟩),
        Function.update l r.key (some (.held r.token r.fingerprint, now + r.ttl)))) ∨
    (∃ ctx r fingerprint, call = .complete ctx r ∧
      l.owned now r.key r.token = some fingerprint ∧ l.step now call =
      (.complete (.ok ()),
        Function.update l r.key (some (.done fingerprint r.result, now + r.ttl)))) ∨
    (∃ ctx r fingerprint, call = .abort ctx r ∧
      l.owned now r.key r.token = some fingerprint ∧
      l.step now call = (.abort (.ok ()), Function.update l r.key none)) ∨
    ((l.step now call).1.Quiet ∧ (l.step now call).2 = l) := by
  cases call with
  | begin ctx r =>
    cases hv : validateContext ctx with
    | some err => exact .inr (.inr (.inr (by simp [Ledger.step, hv])))
    | none =>
      cases hl : l.live now r.key with
      | none => exact .inl ⟨ctx, r, rfl, hl, by simp [Ledger.step, Ledger.begin, hv, hl]⟩
      | some c =>
        refine .inr (.inr (.inr ?_))
        simp only [Ledger.step, hv, Ledger.begin, hl]
        split
        · exact ⟨trivial, rfl⟩
        · cases hc : c.1 <;> simp [Claim.report]
  | complete ctx r =>
    cases hv : validateContext ctx with
    | some err => exact .inr (.inr (.inr (by simp [Ledger.step, hv])))
    | none =>
      cases ho : l.owned now r.key r.token with
      | none =>
        exact .inr (.inr (.inr (by simp [Ledger.step, Ledger.complete, hv, ho])))
      | some f =>
        exact .inr (.inl ⟨ctx, r, f, rfl, ho, by simp [Ledger.step, Ledger.complete, hv, ho]⟩)
  | abort ctx r =>
    cases hv : validateContext ctx with
    | some err => exact .inr (.inr (.inr (by simp [Ledger.step, hv])))
    | none =>
      cases ho : l.owned now r.key r.token with
      | none => exact .inr (.inr (.inr (by simp [Ledger.step, Ledger.abort, hv, ho])))
      | some f =>
        exact .inr (.inr (.inl
          ⟨ctx, r, f, rfl, ho, by simp [Ledger.step, Ledger.abort, hv, ho]⟩))

theorem owned_update_ne {k : String} (hk : key ≠ k) (v : Option (Claim × Int)) :
    Ledger.owned (Function.update l k v) now key token = l.owned now key token := by
  simp [Ledger.owned, Keyspace.live, hk]

/-- What is owned later was owned at every earlier instant. -/
theorem owned_earlier {before : Int} {f : String} (hb : before ≤ now)
    (h : l.owned now key token = some f) : ∃ deadline, now < deadline ∧
      l.live before key = some (.held token f, deadline) := by
  obtain ⟨d, hd⟩ := Ledger.owned_eq_some.mp h
  obtain ⟨hk, hlt⟩ := Keyspace.live_eq_some.mp hd
  have hlt : now < d := hlt
  exact ⟨d, hlt, Keyspace.live_eq_some.mpr ⟨hk, show before < d by omega⟩⟩

/-- Who settles a claim was its owner, and nobody owns it afterwards. -/
theorem owned_settle {k owner f : String} {before : Int} {v : Option (Claim × Int)}
    (hb : before ≤ now) (hown : l.owned before k owner = some f)
    (hv : Ledger.owned (Function.update l k v) now k token = none) :
    ((∃ f, l.owned now key token = some f) ∧ ¬ (k = key ∧ owner = token)) ↔
      ∃ f, Ledger.owned (Function.update l k v) now key token = some f := by
  by_cases hk : key = k
  · subst hk
    simp only [hv, reduceCtorEq, exists_false, iff_false]
    rintro ⟨⟨g, hg⟩, hne⟩
    obtain ⟨d, hd⟩ := Ledger.owned_eq_some.mp hown
    obtain ⟨d', -, hd'⟩ := owned_earlier hb hg
    simp_all
  · simp [owned_update_ne hk, Ne.symm hk]

/-- A completed claim has no owner. -/
theorem ne_of_done {k owner f g : String} {d : Int} (hown : l.owned now k owner = some g)
    (hd : l.live now key = some (.done f result, d)) : key ≠ k := by
  rintro rfl
  obtain ⟨d', hd'⟩ := Ledger.owned_eq_some.mp hown
  simp [hd'] at hd

theorem owned_held {r : BeginRequest} {deadline : Int} :
    (∃ f, Ledger.owned (Function.update l r.key (some (.held r.token r.fingerprint, deadline)))
      now r.key token = some f) ↔ r.token = token ∧ now < deadline := by
  by_cases hlt : now < deadline <;> simp [Ledger.owned, Keyspace.live, Option.filter, hlt]

/-- History and table agree on who owns a claim, at every instant from the last call on. -/
theorem owns_iff_owned (hr : ledger.Run 0 last l h) (hnow : last ≤ now) :
    Owns h key token now ↔ ∃ f, l.owned now key token = some f := by
  induction hr with
  | init => simp [Owns, ledger, Ledger.owned, Keyspace.live]
  | @call last l h run at' call later ih =>
    have ih := ih (Int.le_trans later hnow)
    rw [owns_append, ih]
    change _ ↔ ∃ f, (l.step at' call).2.owned now key token = some f
    obtain ⟨ctx, r, rfl, hnone, hstep⟩ | ⟨ctx, r, f, rfl, hown, hstep⟩ |
      ⟨ctx, r, f, rfl, hown, hstep⟩ | ⟨hquiet, hstep⟩ := step_cases l at' call
    · -- a grant finds no unexpired claim, so no earlier owner of this key is left
      simp only [ledger, hstep, Acquires, Settles, not_false_eq_true, and_true]
      by_cases hk : key = r.key
      · subst hk
        rw [owned_held]
        constructor
        · rintro (⟨-, ht, hlt⟩ | ⟨f, hf⟩)
          · exact ⟨ht, hlt⟩
          · obtain ⟨d, -, hd⟩ := owned_earlier hnow hf
            simp [hnone] at hd
        · rintro ⟨ht, hlt⟩
          exact .inl ⟨rfl, ht, hlt⟩
      · simp [owned_update_ne hk, Ne.symm hk]
    · simp only [ledger, hstep, Acquires, Settles, false_or]
      refine owned_settle hnow hown ?_
      by_cases hlt : now < at' + r.ttl <;>
        simp [Ledger.owned, Keyspace.live, Option.filter, hlt]
    · simp only [ledger, hstep, Acquires, Settles, false_or]
      exact owned_settle hnow hown (by simp [Ledger.owned, Keyspace.live])
    · rw [hstep]
      have hq : (Event.mk at' call (ledger.step l at' call).1).reply.Quiet := hquiet
      simp [not_acquires_of_quiet hq, not_settles_of_quiet hq]

/-- A claim in the table carries the fingerprint it was acquired with. -/
theorem fingerprint_of_claim (hr : ledger.Run 0 last l h) {c : Claim} {deadline : Int}
    (hc : l key = some (c, deadline)) : fingerprint key h = some c.fingerprint := by
  induction hr generalizing c deadline with
  | init => cases hc
  | @call last l h run at' call later ih =>
    simp only [fingerprint, List.foldl_append, List.foldl_cons, List.foldl_nil] at ih ⊢
    have hc : (l.step at' call).2 key = some (c, deadline) := hc
    obtain ⟨ctx, r, rfl, -, hstep⟩ | ⟨ctx, r, f, rfl, hown, hstep⟩ |
      ⟨ctx, r, f, rfl, -, hstep⟩ | ⟨hquiet, hstep⟩ := step_cases l at' call
    · simp only [ledger, hstep] at hc ⊢
      by_cases hk : key = r.key
      · subst hk
        simp only [Function.update_self, Option.some.injEq, Prod.mk.injEq] at hc
        simp [← hc.1, Claim.fingerprint]
      · rw [Function.update_of_ne hk] at hc
        rw [if_neg (Ne.symm hk), ih hc]
    · simp only [hstep] at hc
      by_cases hk : key = r.key
      · subst hk
        simp only [Function.update_self, Option.some.injEq, Prod.mk.injEq] at hc
        obtain ⟨d, hd⟩ := Ledger.owned_eq_some.mp hown
        rw [← hc.1]
        exact ih (c := .held r.token f) (Keyspace.live_eq_some.mp hd).1
      · rw [Function.update_of_ne hk] at hc
        exact ih hc
    · simp only [hstep] at hc
      by_cases hk : key = r.key
      · simp [hk] at hc
      · rw [Function.update_of_ne hk] at hc
        exact ih hc
    · rw [hstep] at hc
      rw [← ih hc]
      have hquiet : (ledger.step l at' call).1.Quiet := hquiet
      split
      · simp_all
      · rfl

/-- A completed claim stays in the table, result included, until its time to live elapses. -/
theorem completes_live (hr : ledger.Run 0 last l h) (hnow : last ≤ now) (he : e ∈ h)
    (hc : Completes key result now e) :
    ∃ f deadline, l.live now key = some (.done f result, deadline) := by
  induction hr with
  | init => simp at he
  | @call last l h run at' call later ih =>
    change ∃ f deadline, (l.step at' call).2.live now key = some (.done f result, deadline)
    rcases List.mem_append.mp he with he | he
    · obtain ⟨f, d, hd⟩ := ih (Int.le_trans later hnow) he
      obtain ⟨hk, hlt⟩ := Keyspace.live_eq_some.mp hd
      have hlt : now < d := hlt
      have hat : l.live at' key = some (.done f result, d) :=
        Keyspace.live_eq_some.mpr ⟨hk, show at' < d by omega⟩
      refine ⟨f, d, ?_⟩
      obtain ⟨ctx, r, rfl, hnone, hstep⟩ | ⟨ctx, r, g, rfl, hown, hstep⟩ |
        ⟨ctx, r, g, rfl, hown, hstep⟩ | ⟨hquiet, hstep⟩ := step_cases l at' call
      · have hne : key ≠ r.key := by rintro rfl; simp [hnone] at hat
        simpa [hstep, Keyspace.live, hne] using hd
      · have hne := ne_of_done hown hat
        simpa [hstep, Keyspace.live, hne] using hd
      · have hne := ne_of_done hown hat
        simpa [hstep, Keyspace.live, hne] using hd
      · rwa [hstep]
    · obtain rfl := List.mem_singleton.mp he
      obtain ⟨ctx, r, rfl, hnone, hstep⟩ | ⟨ctx, r, g, rfl, hown, hstep⟩ |
        ⟨ctx, r, g, rfl, hown, hstep⟩ | ⟨hquiet, hstep⟩ := step_cases l at' call
      · simp [Completes] at hc
      · simp only [ledger, hstep, Completes] at hc
        obtain ⟨rfl, rfl, hlt⟩ := hc
        exact ⟨g, at' + r.ttl, by simp [hstep, Keyspace.live, Option.filter, hlt]⟩
      · simp [Completes] at hc
      · exact absurd hc (not_completes_of_quiet hquiet)

end Fries.Idempotency
