import Fries.Embedding.Cached
import Mathlib.Data.List.Basic

/-! A cache is not noticed as long as no two different requests share a key. -/
namespace Fries.Embedding

variable {σ V E : Type} {e : Embedder σ V E} {s s' : σ} {texts : List Bytes} {model : Option Bytes}

section Rule

/-- What a call establishes about the vector of each text, and what it knows of the texts that
were not in the cache. -/
structure Facts (σ V : Type) where
  inv : σ → Prop
  good : σ → Bytes → V → Prop
  missed : σ → Bytes → Prop

/-- What is known of a state is still known of a later one. -/
structure Facts.Kept (F : Facts σ V) (s s' : σ) : Prop where
  inv : F.inv s'
  good : ∀ text v, F.good s text v → F.good s' text v
  missed : ∀ text, F.missed s text → F.missed s' text

/-- A cache respects the facts when it is used for some texts and their vectors. -/
structure Facts.Respected (F : Facts σ V) (e : Embedder σ V E) (texts : List Bytes) (model : Bytes)
    (vec : Bytes → V) : Prop where
  hit : ∀ text ∈ texts, ∀ s v s', F.inv s →
    e.cacher.get (e.generator text model) s = (.ok v, s') → F.Kept s s' ∧ F.good s' text v
  miss : ∀ text ∈ texts, ∀ s s', F.inv s →
    e.cacher.get (e.generator text model) s = (.error .notFound, s') →
      F.Kept s s' ∧ F.missed s' text
  works : ∀ text ∈ texts, ∀ s err s', F.inv s →
    e.cacher.get (e.generator text model) s ≠ (.error (.other err), s')
  set : ∀ text ∈ texts, ∀ s, F.inv s → F.missed s text →
    F.Kept s (e.cacher.set (e.generator text model) (vec text) s).2 ∧
      F.good (e.cacher.set (e.generator text model) (vec text) s).2 text (vec text)

variable {F : Facts σ V} {vec : Bytes → V} {m : Bytes}

theorem kept_refl (h : F.inv s) : F.Kept s s := ⟨h, fun _ _ => id, fun _ => id⟩

theorem kept_trans {s₁ s₂ s₃ : σ} (h : F.Kept s₁ s₂) (h' : F.Kept s₂ s₃) : F.Kept s₁ s₃ :=
  ⟨h'.inv, fun text v hgood => h'.good text v (h.good text v hgood),
    fun text hmissed => h'.missed text (h.missed text hmissed)⟩

/-- What the first loop has found among the first `n` texts. -/
structure Partial (F : Facts σ V) (texts : List Bytes) (n : Nat) (found : Found V) (s : σ) :
    Prop where
  each : ∀ i text, i < n → texts[i]? = some text →
    i ∈ found.uncached ∨ ∃ v, found.embeddings i = some v ∧ F.good s text v
  positions : found.uncached.map (texts[·]?) = found.uncachedTexts.map some
  missed : ∀ text ∈ found.uncachedTexts, F.missed s text

theorem partial_kept {n : Nat} {found : Found V} (h : Partial F texts n found s)
    (hkept : F.Kept s s') : Partial F texts n found s' := by
  refine ⟨?_, h.positions, fun text ht => hkept.missed text (h.missed text ht)⟩
  intro i text hi htext
  rcases h.each i text hi htext with hmem | ⟨v, hv, hgood⟩
  · exact .inl hmem
  · exact .inr ⟨v, hv, hkept.good text v hgood⟩

theorem lookupLoop_spec (hF : F.Respected e texts m vec) :
    ∀ (rest : List Bytes) (idx : Nat) (found : Found V) (s : σ), texts.drop idx = rest →
      F.inv s → Partial F texts idx found s →
      ∃ found' s', lookupLoop e m idx rest found s = (.ok found', s') ∧ F.Kept s s' ∧
        Partial F texts texts.length found' s' := by
  intro rest
  induction rest with
  | nil =>
    intro idx found s hrest hinv hpartial
    have hle : texts.length ≤ idx := List.drop_eq_nil_iff.mp hrest
    exact ⟨found, s, rfl, kept_refl hinv,
      ⟨fun i text hi => hpartial.each i text (by omega), hpartial.positions, hpartial.missed⟩⟩
  | cons text rest ih =>
    intro idx found s hrest hinv hpartial
    have hat : texts[idx]? = some text := by
      rw [← List.head?_drop, hrest]
      rfl
    have hmem : text ∈ texts := List.mem_of_getElem? hat
    have hnext : texts.drop (idx + 1) = rest := by
      rw [← List.tail_drop, hrest]
      rfl
    simp only [lookupLoop]
    split
    · rename_i s₁ hget
      obtain ⟨hkept, hmissed⟩ := hF.miss text hmem s s₁ hinv hget
      have hold := partial_kept hpartial hkept
      obtain ⟨found', s', hloop, hkept', hdone⟩ := ih (idx + 1)
        { found with
          uncached := found.uncached ++ [idx]
          uncachedTexts := found.uncachedTexts ++ [text] } s₁ hnext hkept.inv
        { each := by
            intro i u hi hu
            rcases Nat.lt_succ_iff_lt_or_eq.mp hi with hlt | rfl
            · rcases hold.each i u hlt hu with hmem' | hgood
              · exact .inl (List.mem_append_left _ hmem')
              · exact .inr hgood
            · exact .inl (List.mem_append_right _ List.mem_cons_self)
          positions := by simp [hold.positions, hat]
          missed := by
            intro u hu
            rcases List.mem_append.mp hu with hu | hu
            · exact hold.missed u hu
            · rwa [List.mem_singleton.mp hu] }
      exact ⟨found', s', hloop, kept_trans hkept hkept', hdone⟩
    · rename_i err s₁ hget
      exact absurd hget (hF.works text hmem s err s₁ hinv)
    · rename_i emb s₁ hget
      obtain ⟨hkept, hgood⟩ := hF.hit text hmem s emb s₁ hinv hget
      have hold := partial_kept hpartial hkept
      obtain ⟨found', s', hloop, hkept', hdone⟩ := ih (idx + 1)
        { found with embeddings := Function.update found.embeddings idx (some emb) } s₁ hnext
        hkept.inv
        { each := by
            intro i u hi hu
            by_cases hi' : i = idx
            · subst i
              cases hat.symm.trans hu
              exact .inr ⟨emb, Function.update_self .., hgood⟩
            · rcases hold.each i u (by omega) hu with hmem' | ⟨v, hv, hgood'⟩
              · exact .inl hmem'
              · exact .inr ⟨v, (Function.update_of_ne hi' _ _).trans hv, hgood'⟩
          positions := hold.positions
          missed := hold.missed }
      exact ⟨found', s', hloop, kept_trans hkept hkept', hdone⟩

theorem storeLoop_spec (hF : F.Respected e texts m vec) {uncachedTexts : List Bytes} :
    ∀ (uncached : List Nat) (i : Nat) (embeddings : Nat → Option V) (s : σ),
      uncached.map (texts[·]?) = (uncachedTexts.drop i).map some →
      (∀ text ∈ uncachedTexts.drop i, F.missed s text) → F.inv s →
      ∃ embeddings' s', storeLoop e texts (uncachedTexts.map vec) m i uncached embeddings s =
          (.ok embeddings', s') ∧ F.Kept s s' ∧
        (∀ idx ∈ uncached, ∀ text, texts[idx]? = some text →
          ∃ v, embeddings' idx = some v ∧ F.good s' text v) ∧
        ∀ idx, idx ∉ uncached → embeddings' idx = embeddings idx := by
  intro uncached
  induction uncached with
  | nil =>
    intro i embeddings s _ _ hinv
    exact ⟨embeddings, s, rfl, kept_refl hinv, by simp, fun _ _ => rfl⟩
  | cons idx uncached ih =>
    intro i embeddings s hpositions hmissed hinv
    obtain ⟨text, htail, hdrop, hat⟩ : ∃ text tail, uncachedTexts.drop i = text :: tail ∧
        texts[idx]? = some text := by
      cases hdrop : uncachedTexts.drop i with
      | nil => simp [hdrop] at hpositions
      | cons text tail =>
        simp only [hdrop, List.map_cons, List.cons.injEq] at hpositions
        exact ⟨text, tail, rfl, hpositions.1⟩
    have hvector : (uncachedTexts.map vec)[i]? = some (vec text) := by
      have hhead : uncachedTexts[i]? = some text := by
        rw [← List.head?_drop, hdrop]
        rfl
      rw [List.getElem?_map, hhead]
      rfl
    have hnext : uncachedTexts.drop (i + 1) = htail := by
      rw [← List.tail_drop, hdrop]
      rfl
    have hmem : text ∈ texts := List.mem_of_getElem? hat
    rw [hdrop] at hpositions hmissed
    obtain ⟨hkept, hgood⟩ := hF.set text hmem s hinv (hmissed text List.mem_cons_self)
    simp only [storeLoop, hat, hvector]
    obtain ⟨embeddings', s', hloop, hkept', heach, hothers⟩ := ih (i + 1)
      (Function.update embeddings idx (some (vec text)))
      (e.cacher.set (e.generator text m) (vec text) s).2
      (by simpa [hnext] using (List.cons.inj hpositions).2)
      (fun u hu => hkept.missed u (hmissed u (List.mem_cons_of_mem _ (hnext ▸ hu)))) hkept.inv
    refine ⟨embeddings', s', hloop, kept_trans hkept hkept', ?_, ?_⟩
    · intro idx' hidx u hu
      by_cases hlater : idx' ∈ uncached
      · exact heach idx' hlater u hu
      · obtain rfl : idx' = idx := by simpa [hlater] using hidx
        cases hat.symm.trans hu
        refine ⟨vec text, ?_, hkept'.good text _ hgood⟩
        rw [hothers idx' hlater, Function.update_self]
    · intro idx' hidx
      simp only [List.mem_cons, not_or] at hidx
      rw [hothers idx' hidx.2, Function.update_of_ne hidx.1]

/-- A call over a cache that respects the facts gives each text a good vector. -/
theorem embedStrings_spec (hF : F.Respected e texts (model.getD []) vec)
    (hembed : ∀ asked, e.embedder asked model = .ok (asked.map vec)) (hinv : F.inv s) :
    ∃ (results : List (Option V)) (s' : σ), e.embedStrings texts model s = (.ok results, s') ∧
      F.Kept s s' ∧ results.length = texts.length ∧
      ∀ (i : Nat) text, texts[i]? = some text →
        ∃ v, results[i]? = some (some v) ∧ F.good s' text v := by
  obtain ⟨found, s₁, hlookup, hkept, hfound⟩ := lookupLoop_spec hF texts 0 ⟨fun _ => none, [], []⟩ s
    rfl hinv ⟨fun i _ hi => absurd hi (Nat.not_lt_zero i), rfl, by simp⟩
  have hcollect : ∀ embeddings : Nat → Option V, ∀ s', (∀ i text, i < texts.length →
      texts[i]? = some text → ∃ v, embeddings i = some v ∧ F.good s' text v) →
      ∀ (i : Nat) text, texts[i]? = some text →
        ∃ v, ((List.range texts.length).map embeddings)[i]? = some (some v) ∧ F.good s' text v := by
    intro embeddings s' heach i text htext
    have hi : i < texts.length := (List.getElem?_eq_some_iff.mp htext).1
    obtain ⟨v, hv, hgood⟩ := heach i text hi htext
    exact ⟨v, by simp [hi, hv], hgood⟩
  simp only [Embedder.embedStrings, hlookup]
  split
  · rename_i hempty
    have hnone : found.uncached = [] := by
      have hpositions := hfound.positions
      rw [List.isEmpty_iff.mp hempty] at hpositions
      exact List.map_eq_nil_iff.mp hpositions
    refine ⟨_, s₁, rfl, hkept, by simp, hcollect found.embeddings s₁ fun i text hi htext => ?_⟩
    rcases hfound.each i text hi htext with hmem | hgood
    · rw [hnone] at hmem
      cases hmem
    · exact hgood
  · obtain ⟨embeddings, s₂, hstore, hkept', hcached, hothers⟩ := storeLoop_spec hF found.uncached 0
      found.embeddings s₁ hfound.positions hfound.missed hkept.inv
    simp only [hembed, hstore]
    refine ⟨_, s₂, rfl, kept_trans hkept hkept', by simp, hcollect embeddings s₂ ?_⟩
    intro i text hi htext
    by_cases hmem : i ∈ found.uncached
    · exact hcached i hmem text htext
    · rcases hfound.each i text hi htext with hmem' | ⟨v, hv, hgood⟩
      · exact absurd hmem' hmem
      · exact ⟨v, (hothers i hmem).trans hv, hkept'.good text v hgood⟩

end Rule

/-- What a call returns without a cache. -/
def Call.exact (vec : Bytes → Option Bytes → V) (c : Call) :
    Except (Failure E) (List (Option V)) :=
  .ok (c.texts.map fun text => some (vec text c.model))

/-- A cache that returns only what was put under a key. It can forget anything at any time. -/
structure Cacher.Lawful (c : Cacher σ V E) (view : σ → Bytes → Option V) : Prop where
  hit : ∀ {key s v s'}, c.get key s = (.ok v, s') →
    view s key = some v ∧ ∀ k u, view s' k = some u → view s k = some u
  miss : ∀ {key s s'}, c.get key s = (.error .notFound, s') →
    ∀ k u, view s' k = some u → view s k = some u
  works : ∀ key s err s', c.get key s ≠ (.error (.other err), s')
  set : ∀ key v s k u, view (c.set key v s).2 k = some u → (k = key ∧ u = v) ∨ view s k = some u

/-- No two different requests have the same text before it is hashed. -/
def Separate (calls : List Call) : Prop :=
  ∀ c ∈ calls, ∀ c' ∈ calls, ∀ text ∈ c.texts, ∀ text' ∈ c'.texts,
    c.key simpleGenerator text = c'.key simpleGenerator text' →
      text = text' ∧ c.model = c'.model

theorem hashGenerator_inj {hash : Bytes → Bytes} (hinj : Function.Injective hash)
    {text text' model model' : Bytes}
    (h : hashGenerator hash text model = hashGenerator hash text' model') :
    simpleGenerator text model = simpleGenerator text' model' := hinj (hexText_injective h)

section Forward

variable {view : σ → Bytes → Option V} {vec : Bytes → Option Bytes → V} {hash : Bytes → Bytes}
  {all : List Call}

/-- Everything in the cache is the vector of a request that was made. -/
def Cached (e : Embedder σ V E) (view : σ → Bytes → Option V) (vec : Bytes → Option Bytes → V)
    (all : List Call) (s : σ) : Prop :=
  ∀ k v, view s k = some v → ∃ c ∈ all, ∃ text ∈ c.texts, k = c.key e.generator text ∧
    v = vec text c.model

section

variable (hgen : e.generator = hashGenerator hash) (hinj : Function.Injective hash)
  (hlaw : e.cacher.Lawful view) {c : Call}

include hgen hinj hlaw

theorem respected_of_separate (hsep : Separate all) (hc : c ∈ all) :
    Facts.Respected ⟨Cached e view vec all, fun _ text v => v = vec text c.model, fun _ _ => True⟩
      e c.texts (c.model.getD []) (vec · c.model) where
  hit text htext s v s' hinv hget := by
    obtain ⟨hstored, hold⟩ := hlaw.hit hget
    refine ⟨⟨fun k u hu => hinv k u (hold k u hu), fun _ _ => id, fun _ => id⟩, ?_⟩
    obtain ⟨c', hc', text', htext', hkey, rfl⟩ := hinv _ v hstored
    rw [Call.key, hgen] at hkey
    obtain ⟨rfl, hmodel⟩ :=
      hsep c hc c' hc' text htext text' htext' (hashGenerator_inj hinj (hgen ▸ hkey))
    rw [hmodel]
  miss text _ s s' hinv hget :=
    ⟨⟨fun k u hu => hinv k u (hlaw.miss hget k u hu), fun _ _ => id, fun _ => id⟩, trivial⟩
  works text _ s err s' _ := hlaw.works _ s err s'
  set text htext s hinv _ := by
    refine ⟨⟨fun k u hu => ?_, fun _ _ => id, fun _ => id⟩, rfl⟩
    rcases hlaw.set _ _ s k u hu with ⟨rfl, rfl⟩ | hold
    · exact ⟨c, hc, text, htext, rfl, rfl⟩
    · exact hinv k u hold

/-- A call over such a cache returns what the embedder gives. -/
theorem call_exact (hembed : ∀ asked model, e.embedder asked model = .ok (asked.map (vec · model)))
    (hsep : Separate all) (hc : c ∈ all) (hs : Cached e view vec all s) :
    ∃ s', e.embedStrings c.texts c.model s = (c.exact vec, s') ∧ Cached e view vec all s' := by
  obtain ⟨results, s', hcall, hkept, hlength, heach⟩ := embedStrings_spec
    (respected_of_separate hgen hinj hlaw hsep hc) (fun asked => hembed asked c.model) hs
  have hresults : results = c.texts.map fun text => some (vec text c.model) := by
    refine List.ext_getElem? fun i => ?_
    cases htext : c.texts[i]? with
    | none =>
      have hout : c.texts.length ≤ i := List.getElem?_eq_none_iff.mp htext
      simp [htext, List.getElem?_eq_none_iff.mpr (hlength ▸ hout)]
    | some text =>
      obtain ⟨v, hv, rfl⟩ := heach i text htext
      simp [htext, hv]
  exact ⟨s', by rw [hcall, hresults]; rfl, hkept.inv⟩

theorem run_exact (hembed : ∀ asked model, e.embedder asked model = .ok (asked.map (vec · model)))
    (hsep : Separate all) :
    ∀ (calls : List Call) (s : σ), (∀ c ∈ calls, c ∈ all) → Cached e view vec all s →
      (e.run calls s).1 = calls.map (Call.exact vec) := by
  intro calls
  induction calls with
  | nil =>
    intro s _ _
    rfl
  | cons c calls ih =>
    intro s hall hs
    obtain ⟨s', hcall, hs'⟩ :=
      call_exact hgen hinj hlaw hembed hsep (hall c List.mem_cons_self) hs
    simp only [Embedder.run, hcall, List.map_cons,
      ih s' (fun c' hc' => hall c' (List.mem_cons_of_mem _ hc')) hs']

end

end Forward

/-- A cache that is a map. -/
def mapCacher (V E : Type) : Cacher (Bytes → Option V) V E where
  get key s :=
    match s key with
    | some v => (.ok v, s)
    | none => (.error .notFound, s)
  set key v s := (.ok (), Function.update s key (some v))

theorem mapCacher_lawful : (mapCacher V E).Lawful id where
  hit {key s v s'} h := by
    simp only [mapCacher] at h
    split at h <;> cases h
    exact ⟨‹_›, fun _ _ => id⟩
  miss {key s s'} h := by
    simp only [mapCacher] at h
    split at h <;> cases h
    exact fun _ _ => id
  works key s err s' h := by
    simp only [mapCacher] at h
    split at h <;> cases h
  set key v s k u h := by
    change Function.update s key (some v) k = some u at h
    by_cases hk : k = key
    · subst hk
      rw [Function.update_self] at h
      exact .inl ⟨rfl, (Option.some.inj h).symm⟩
    · rw [Function.update_of_ne hk] at h
      exact .inr h

/-- An embedder whose vectors tell all requests apart, with a map for a cache. -/
def identityEmbedder (hash : Bytes → Bytes) :
    Embedder (Bytes → Option (Bytes × Option Bytes)) (Bytes × Option Bytes) Empty where
  embedder asked model := .ok (asked.map fun text => (text, model))
  cacher := mapCacher _ _
  generator := hashGenerator hash

section Backward

variable {hash : Bytes → Bytes} {s : Bytes → Option (Bytes × Option Bytes)}

/-- What a map keeps is found under its key from then on. -/
theorem respected_map (hinj : Function.Injective hash) (c : Call)
    (start : Bytes → Option (Bytes × Option Bytes)) :
    Facts.Respected
      { inv := fun s => ∀ k v, start k = some v → s k = some v
        good := fun s text v => s (c.key (hashGenerator hash) text) = some v
        missed := fun s text => ∀ v, s (c.key (hashGenerator hash) text) = some v →
          v = (text, c.model) }
      (identityEmbedder hash) c.texts (c.model.getD []) fun text => (text, c.model) where
  hit text _ s v s' hinv hget := by
    obtain ⟨hstored, -⟩ := mapCacher_lawful.hit hget
    simp only [identityEmbedder, mapCacher] at hget
    split at hget <;> cases hget
    exact ⟨kept_refl hinv, hstored⟩
  miss text _ s s' hinv hget := by
    simp only [identityEmbedder, mapCacher] at hget
    split at hget <;> cases hget
    rename_i hnone
    refine ⟨kept_refl hinv, fun v hv => ?_⟩
    cases hnone.symm.trans hv
  works text _ s err s' _ := mapCacher_lawful.works _ s err s'
  set text _ s hinv hmissed := by
    have hkey : ∀ k v, s k = some v →
        Function.update s (c.key (hashGenerator hash) text) (some (text, c.model)) k = some v := by
      intro k v hv
      by_cases hk : k = c.key (hashGenerator hash) text
      · subst hk
        rw [Function.update_self, hmissed v hv]
      · rwa [Function.update_of_ne hk]
    refine ⟨⟨fun k v hv => hkey k v (hinv k v hv), fun u v hv => hkey _ v hv, ?_⟩,
      Function.update_self ..⟩
    intro u hu v hv
    change Function.update s (c.key (hashGenerator hash) text) (some (text, c.model))
      (c.key (hashGenerator hash) u) = some v at hv
    by_cases hk : c.key (hashGenerator hash) u = c.key (hashGenerator hash) text
    · obtain rfl : u = text := List.append_cancel_right (hashGenerator_inj hinj hk)
      rw [Function.update_self] at hv
      exact (Option.some.inj hv).symm
    · rw [Function.update_of_ne hk] at hv
      exact hu v hv

/-- The vector that a call returned for a text is under its key in the end. -/
theorem run_identity (hinj : Function.Injective hash) :
    ∀ (calls : List Call) (s : Bytes → Option (Bytes × Option Bytes)),
      (∀ k v, s k = some v → ((identityEmbedder hash).run calls s).2 k = some v) ∧
      ∀ (j : Nat) c, calls[j]? = some c →
        ∃ results, ((identityEmbedder hash).run calls s).1[j]? = some (.ok results) ∧
          ∀ (i : Nat) text, c.texts[i]? = some text → ∃ v, results[i]? = some (some v) ∧
            ((identityEmbedder hash).run calls s).2 (c.key (hashGenerator hash) text) = some v := by
  intro calls
  induction calls with
  | nil =>
    intro s
    exact ⟨fun _ _ => id, by simp⟩
  | cons c calls ih =>
    intro s
    obtain ⟨results, s', hcall, hkept, -, heach⟩ := embedStrings_spec (s := s)
      (respected_map hinj c s) (fun asked => rfl) fun _ _ => id
    obtain ⟨hlater, hrest⟩ := ih s'
    simp only [Embedder.run, hcall]
    refine ⟨fun k v hv => hlater k v (hkept.inv k v hv), fun j c' hj => ?_⟩
    cases j with
    | zero =>
      cases hj
      refine ⟨results, rfl, fun i text htext => ?_⟩
      obtain ⟨v, hv, hgood⟩ := heach i text htext
      exact ⟨v, hv, hlater _ v hgood⟩
    | succ j => exact hrest j c' hj

theorem separate_of_exact (hinj : Function.Injective hash) {calls : List Call}
    (h : ((identityEmbedder hash).run calls fun _ => none).1 = calls.map (Call.exact Prod.mk)) :
    Separate calls := by
  obtain ⟨-, hend⟩ := run_identity hinj calls fun _ => none
  have hunder : ∀ c ∈ calls, ∀ text ∈ c.texts,
      ((identityEmbedder hash).run calls fun _ => none).2 (c.key (hashGenerator hash) text) =
        some (text, c.model) := by
    intro c hc text htext
    obtain ⟨j, hj⟩ := List.mem_iff_getElem?.mp hc
    obtain ⟨i, hi⟩ := List.mem_iff_getElem?.mp htext
    obtain ⟨results, hresults, heach⟩ := hend j c hj
    obtain ⟨v, hv, hlast⟩ := heach i text hi
    rw [h, List.getElem?_map, hj] at hresults
    obtain rfl : c.texts.map (fun text => some (text, c.model)) = results :=
      Except.ok.inj (Option.some.inj hresults)
    rw [List.getElem?_map, hi] at hv
    cases hv
    exact hlast
  intro c hc c' hc' text htext text' htext' hkey
  have hsame : c.key (hashGenerator hash) text = c'.key (hashGenerator hash) text' :=
    congrArg (fun plain => hexText (hash plain)) hkey
  have hpair := (hunder c hc text htext).symm.trans (hsame ▸ hunder c' hc' text' htext')
  exact Prod.mk.inj (Option.some.inj hpair)

end Backward

/-- Calls on an embedder with an empty cache and the default generator return what the embedder
behind it gives exactly if no two different requests are the same once text and model are joined. -/
theorem cache_is_transparent {hash : Bytes → Bytes} (hinj : Function.Injective hash)
    (calls : List Call) :
    (∀ {σ V E : Type} (e : Embedder σ V E) (view : σ → Bytes → Option V)
      (vec : Bytes → Option Bytes → V) (s : σ), e.generator = hashGenerator hash →
      e.cacher.Lawful view →
      (∀ asked model, e.embedder asked model = .ok (asked.map (vec · model))) →
      (∀ key, view s key = none) → (e.run calls s).1 = calls.map (Call.exact vec)) ↔
    Separate calls := by
  constructor
  · intro h
    exact separate_of_exact hinj
      (h (identityEmbedder hash) id Prod.mk (fun _ => none) rfl mapCacher_lawful (fun _ _ => rfl)
        fun _ => rfl)
  · intro hsep σ V E e view vec s hgen hlaw hembed hempty
    refine run_exact hgen hinj hlaw hembed hsep calls s (fun _ => id) fun k v hv => ?_
    rw [hempty k] at hv
    cases hv

/-- `a-b` and `b` are asked for together, then `a` again with a model. -/
theorem cache_is_transparent_hyphen :
    let calls : List Call :=
      [⟨[[97, 45, 98], [98], [98]], none⟩, ⟨[[97]], some [109]⟩, ⟨[[98]], none⟩]
    ((identityEmbedder id).run calls fun _ => none).1 = calls.map (Call.exact Prod.mk) := by
  intro calls
  have hsep : Separate calls := by
    unfold Separate
    decide
  exact (cache_is_transparent Function.injective_id calls).mpr hsep (identityEmbedder id) id
    Prod.mk (fun _ => none) rfl mapCacher_lawful (fun _ _ => rfl) fun _ => rfl

/-- The vector of `a-b` under the model `c` is returned for `a` under the model `b-c`. -/
theorem joined_key_collides :
    let calls : List Call := [⟨[[97, 45, 98]], some [99]⟩, ⟨[[97]], some [98, 45, 99]⟩]
    Function.Injective (id : Bytes → Bytes) ∧
    ((identityEmbedder id).run calls fun _ => none).1 =
      [.ok [some ([97, 45, 98], some [99])], .ok [some ([97, 45, 98], some [99])]] ∧
    ((identityEmbedder id).run calls fun _ => none).1 ≠ calls.map (Call.exact Prod.mk) := by
  intro calls
  have hrun : ((identityEmbedder id).run calls fun _ => none).1 =
      [.ok [some ([97, 45, 98], some [99])], .ok [some ([97, 45, 98], some [99])]] := rfl
  refine ⟨Function.injective_id, hrun, fun h => ?_⟩
  rw [hrun] at h
  simp [calls, Call.exact] at h

end Fries.Embedding
