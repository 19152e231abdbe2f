import Fries.Go
import Mathlib.Logic.Function.Basic

/-! An embedder with a cache in front of it, both given by what they answer. -/
namespace Fries.Embedding

/-- `ErrCacherKeyNotFound`, or any other error of a cache. -/
inductive CacheError (E : Type)
  | notFound
  | other (err : E)

/-- What a call fails with. An index out of range is a panic. -/
inductive Failure (E : Type)
  | cacher (err : E)
  | embedder (err : E)
  | outOfRange

structure Cacher (σ V E : Type) where
  get : Bytes → σ → Except (CacheError E) V × σ
  set : Bytes → V → σ → Except E Unit × σ

/-- The embedder behind the cache gets texts and, if one was requested, a model. -/
structure Embedder (σ V E : Type) where
  embedder : List Bytes → Option Bytes → Except E (List V)
  cacher : Cacher σ V E
  generator : Bytes → Bytes → Bytes

section Generators

def hyphen : UInt8 := 45

/-- `SimpleGenerator.Generate`. -/
def simpleGenerator (text model : Bytes) : Bytes := text ++ hyphen :: model

def hexDigit (n : Nat) : UInt8 := if n < 10 then UInt8.ofNat (48 + n) else UInt8.ofNat (87 + n)

/-- The verb `%x`. -/
def hexText (bytes : Bytes) : Bytes :=
  bytes.flatMap fun b => [hexDigit (b.toNat / 16), hexDigit (b.toNat % 16)]

/-- `HashGenerator.Generate`. -/
def hashGenerator (hash : Bytes → Bytes) (text model : Bytes) : Bytes :=
  hexText (hash (simpleGenerator text model))

theorem hexDigit_inj : ∀ n m : Fin 16, hexDigit n = hexDigit m → n = m := by decide

theorem hexText_injective : Function.Injective hexText := by
  intro a
  induction a with
  | nil =>
    intro b h
    cases b with
    | nil => rfl
    | cons => cases h
  | cons x a ih =>
    intro b h
    cases b with
    | nil => cases h
    | cons y b =>
      simp only [hexText, List.flatMap_cons, List.cons_append, List.nil_append,
        List.cons.injEq] at h
      have hx := x.toNat_lt
      have hy := y.toNat_lt
      have hhigh := hexDigit_inj ⟨x.toNat / 16, by omega⟩ ⟨y.toNat / 16, by omega⟩ h.1
      have hlow := hexDigit_inj ⟨x.toNat % 16, by omega⟩ ⟨y.toNat % 16, by omega⟩ h.2.1
      simp only [Fin.mk.injEq] at hhigh hlow
      have hbyte : x = y := UInt8.toNat_inj.mp (by omega)
      rw [hbyte, ih h.2.2]

end Generators

section Calls

variable {σ V E : Type} (e : Embedder σ V E)

/-- What the loop over the texts has found: vectors by position, and the texts without one. -/
structure Found (V : Type) where
  embeddings : Nat → Option V
  uncached : List Nat
  uncachedTexts : List Bytes

/-- The loop that asks the cache, from position `idx` on. -/
def lookupLoop (model : Bytes) : Nat → List Bytes → Found V → σ → Except (Failure E) (Found V) × σ
  | _, [], found, s => (.ok found, s)
  | idx, text :: texts, found, s =>
    match e.cacher.get (e.generator text model) s with
    | (.error .notFound, s) =>
      lookupLoop model (idx + 1) texts
        { found with
          uncached := found.uncached ++ [idx]
          uncachedTexts := found.uncachedTexts ++ [text] } s
    | (.error (.other err), s) => (.error (.cacher err), s)
    | (.ok emb, s) =>
      lookupLoop model (idx + 1) texts
        { found with embeddings := Function.update found.embeddings idx (some emb) } s

/-- The loop that fills the cache, from the `i`-th vector on; an error of the cache is skipped. -/
def storeLoop (texts : List Bytes) (vectors : List V) (model : Bytes) :
    Nat → List Nat → (Nat → Option V) → σ → Except (Failure E) (Nat → Option V) × σ
  | _, [], embeddings, s => (.ok embeddings, s)
  | i, idx :: uncached, embeddings, s =>
    match texts[idx]?, vectors[i]? with
    | some text, some vector =>
      storeLoop texts vectors model (i + 1) uncached
        (Function.update embeddings idx (some vector))
        (e.cacher.set (e.generator text model) vector s).2
    | _, _ => (.error .outOfRange, s)

/-- `EmbedStrings`. A position without a vector is nil in the result. -/
def Embedder.embedStrings (texts : List Bytes) (model : Option Bytes) (s : σ) :
    Except (Failure E) (List (Option V)) × σ :=
  let generatorModel := model.getD []
  match lookupLoop e generatorModel 0 texts ⟨fun _ => none, [], []⟩ s with
  | (.error err, s) => (.error err, s)
  | (.ok found, s) =>
    if found.uncachedTexts.isEmpty then (.ok ((List.range texts.length).map found.embeddings), s)
    else
      match e.embedder found.uncachedTexts model with
      | .error err => (.error (.embedder err), s)
      | .ok vectors =>
        match storeLoop e texts vectors generatorModel 0 found.uncached found.embeddings s with
        | (.error err, s) => (.error err, s)
        | (.ok embeddings, s) => (.ok ((List.range texts.length).map embeddings), s)

/-- A call of `EmbedStrings`. -/
structure Call where
  texts : List Bytes
  model : Option Bytes

/-- The key under which the vector of a text is cached. -/
def Call.key (generator : Bytes → Bytes → Bytes) (c : Call) (text : Bytes) : Bytes :=
  generator text (c.model.getD [])

/-- The results of calls made one after the other, and the cache they leave. -/
def Embedder.run : List Call → σ → List (Except (Failure E) (List (Option V))) × σ
  | [], s => ([], s)
  | c :: calls, s =>
    let (result, s) := e.embedStrings c.texts c.model s
    let (results, s) := Embedder.run calls s
    (result :: results, s)

end Calls

end Fries.Embedding
