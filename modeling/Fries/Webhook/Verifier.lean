import Fries.Webhook.Signer

/-!
The verifier of webhook messages and what it has established when it accepts one. Base64 decoding
is any function.
-/
namespace Fries.Webhook

def maxSignatureHeaderBytes : Nat := 16 * 1024
def maxSignatureCount : Nat := 32
def hmacSignatureSize : Nat := 32

/-- Five minutes in nanoseconds. -/
def defaultTolerance : Int64 := 300000000000

/-- The accepted keys and the tolerance, a positive `time.Duration` of 64 bits. -/
structure Verifier where
  secrets : List Key
  tolerance : Int64
  tolerance_pos : 0 < tolerance.toInt

inductive VerifierOption
  | withTolerance (tolerance : Int64)
  | withAdditionalVerificationSecrets (secrets : List Secret)

def VerifierOption.apply (v : Verifier) : VerifierOption → Except Error Verifier
  | .withTolerance tolerance =>
    if h : 0 < tolerance.toInt then .ok { v with tolerance, tolerance_pos := h }
    else .error (Sentinel.invalidTolerance.detailed "must be greater than zero")
  | .withAdditionalVerificationSecrets secrets => do
    let secrets ← addSecrets v.secrets secrets
    return { v with secrets }

theorem defaultTolerance_pos : 0 < defaultTolerance.toInt := by decide

def newVerifier (secret : Secret) (options : List (Option VerifierOption)) :
    Except Error Verifier := do
  let key ← validateSecret secret
  (options.filterMap id).foldlM VerifierOption.apply ⟨[key], defaultTolerance, defaultTolerance_pos⟩

structure Metadata where
  id : Bytes
  timestamp : Int
  deriving DecidableEq, Repr

def requiredSingleHeader (headers : Header) (name : String) (invalidError : Sentinel) :
    Except Error Bytes :=
  match headers.values name with
  | [] => .error (Sentinel.missingHeader.detailed name)
  | [value] =>
    if value.isEmpty then .error (Sentinel.missingHeader.detailed name) else .ok value
  | _ => .error (invalidError.detailed ("duplicate " ++ name))

/-- Ends a function with an error if a condition holds. -/
def refuseIf (c : Prop) [Decidable c] (err : Error) : Except Error Unit :=
  if c then .error err else .ok ()

section Verify

variable (hmac : Bytes → Bytes → Bytes) (decode : Bytes → Option Bytes)

/-- The signature of a token; other versions and what cannot be decoded are skipped. -/
def parseToken (token : Bytes) : Option Bytes :=
  match Text.cut comma token with
  | some (version, encoded) =>
    if version = signatureVersion then
      (decode encoded).bind fun signature =>
        if signature.length = hmacSignatureSize then some signature else none
    else none
  | none => none

/-- The loop over the tokens of one value. -/
def scanTokens : List Bytes → Nat → List Bytes → Except Error (Nat × List Bytes)
  | [], tokenCount, signatures => .ok (tokenCount, signatures)
  | token :: tokens, tokenCount, signatures =>
    if maxSignatureCount < tokenCount + 1 then .error Sentinel.invalidSignature.error
    else scanTokens tokens (tokenCount + 1) (signatures ++ (parseToken decode token).toList)

/-- The loop over the values of the header. -/
def scanValues : List Bytes → Nat → Nat → List Bytes → Except Error (List Bytes)
  | [], _, _, signatures => .ok signatures
  | value :: values, totalBytes, tokenCount, signatures =>
    if maxSignatureHeaderBytes < totalBytes + value.length then
      .error Sentinel.invalidSignature.error
    else do
      let (tokenCount, signatures) ←
        scanTokens decode (Text.fields Text.spaceLength value) tokenCount signatures
      scanValues values (totalBytes + value.length) tokenCount signatures

def parseSignatures (headers : Header) : Except Error (List Bytes) :=
  match headers.values headerSignature with
  | [] => .error (Sentinel.missingHeader.detailed headerSignature)
  | values => do
    let signatures ← scanValues decode values 0 0 []
    refuseIf (signatures = []) Sentinel.invalidSignature.error
    return signatures

/-- The two loops that compare every signature with that of every secret. -/
def matched (secrets : List Key) (messageID timestamp payload : Bytes) (signatures : List Bytes) :
    Bool :=
  secrets.foldl (fun matched key =>
    let expected := signDigest hmac key.bytes messageID timestamp payload
    signatures.foldl (fun matched signature => decide (expected = signature) || matched) matched)
    false

/-- A timestamp header as a number of seconds. -/
def parseTimestamp (text : Bytes) : Except Error Int :=
  match Text.parseInt text with
  | some seconds => if seconds < 0 then .error Sentinel.invalidTimestamp.error else .ok seconds
  | none => .error Sentinel.invalidTimestamp.error

def Verifier.verify (v : Verifier) (now : Int) (headers : Header) (payload : Bytes) :
    Except Error Metadata := do
  let messageID ← requiredSingleHeader headers headerID .invalidMessageID
  refuseIf (validMessageID messageID = false) Sentinel.invalidMessageID.error
  let timestampValue ← requiredSingleHeader headers headerTimestamp .invalidTimestamp
  let unixTimestamp ← parseTimestamp timestampValue
  let timestamp := unixTime unixTimestamp
  let difference := timeSub now timestamp
  refuseIf (v.tolerance.toInt < difference ∨ difference < -v.tolerance.toInt)
    Sentinel.timestampOutsideTolerance.error
  let signatures ← parseSignatures decode headers
  refuseIf (matched hmac v.secrets messageID timestampValue payload signatures = false)
    Sentinel.invalidSignature.error
  return ⟨messageID, timestamp⟩

end Verify

section Inversion

variable {hmac : Bytes → Bytes → Bytes} {decode : Bytes → Option Bytes} {v : Verifier}
  {now : Int} {headers : Header} {payload id timestamp : Bytes} {m : Metadata}
  {values tokens signatures found : List Bytes} {tokenCount totalBytes count : Nat}

theorem refuseIf_ok {c : Prop} [Decidable c] {err : Error} {u : Unit} :
    refuseIf c err = .ok u ↔ ¬ c := by
  unfold refuseIf
  split <;> simp [*]

/-- What `Verify` has found when it accepts a message. -/
theorem verify_ok : v.verify hmac decode now headers payload = .ok m ↔
    ∃ id timestamp seconds signatures,
      requiredSingleHeader headers headerID .invalidMessageID = .ok id ∧
      validMessageID id = true ∧
      requiredSingleHeader headers headerTimestamp .invalidTimestamp = .ok timestamp ∧
      parseTimestamp timestamp = .ok seconds ∧
      (timeSub now (unixTime seconds) ≤ v.tolerance.toInt ∧
        -v.tolerance.toInt ≤ timeSub now (unixTime seconds)) ∧
      parseSignatures decode headers = .ok signatures ∧
      matched hmac v.secrets id timestamp payload signatures = true ∧
      ⟨id, unixTime seconds⟩ = m := by
  simp only [Verifier.verify, bind_ok, refuseIf_ok, exists_const, Bool.not_eq_false, not_or,
    Int.not_lt, pure, Except.pure, Except.ok.injEq]
  constructor
  · rintro ⟨id, hid, hvalid, timestamp, ht, seconds, hseconds, hclose, signatures, hs, hm, rfl⟩
    exact ⟨id, timestamp, seconds, signatures, hid, hvalid, ht, hseconds, hclose, hs, hm, rfl⟩
  · rintro ⟨id, timestamp, seconds, signatures, hid, hvalid, ht, hseconds, hclose, hs, hm, rfl⟩
    exact ⟨id, hid, hvalid, timestamp, ht, seconds, hseconds, hclose, signatures, hs, hm, rfl⟩

/-- A required header is there once and not empty. -/
theorem requiredSingleHeader_ok {name : String} {invalid : Sentinel} {value : Bytes} :
    requiredSingleHeader headers name invalid = .ok value ↔
      headers.values name = [value] ∧ value ≠ [] := by
  unfold requiredSingleHeader
  split
  · rename_i hnone
    simp [hnone]
  · rename_i only hone
    simp only [hone, List.isEmpty_iff, List.cons.injEq, and_true]
    split
    · rename_i hempty
      refine ⟨by simp, ?_⟩
      rintro ⟨rfl, hne⟩
      exact absurd hempty hne
    · rename_i hne
      constructor
      · intro h
        cases h
        exact ⟨rfl, hne⟩
      · rintro ⟨rfl, -⟩
        rfl
  · rename_i hmany
    refine ⟨by simp, ?_⟩
    rintro ⟨hone, -⟩
    exact absurd hone (hmany value)

theorem parseTimestamp_ok {text : Bytes} {seconds : Int} :
    parseTimestamp text = .ok seconds ↔ Text.parseInt text = some seconds ∧ 0 ≤ seconds := by
  unfold parseTimestamp
  split
  · rename_i n hn
    split
    · rename_i hneg
      refine ⟨by simp, ?_⟩
      rintro ⟨hsome, hpos⟩
      cases hn.symm.trans hsome
      omega
    · rename_i hpos
      constructor
      · intro h
        cases h
        exact ⟨hn, Int.not_lt.mp hpos⟩
      · rintro ⟨hsome, -⟩
        cases hn.symm.trans hsome
        rfl
  · rename_i hnone
    refine ⟨by simp, ?_⟩
    rintro ⟨hsome, -⟩
    cases hnone.symm.trans hsome

theorem matched_iff {secrets : List Key} :
    matched hmac secrets id timestamp payload signatures = true ↔
      ∃ key ∈ secrets, signDigest hmac key.bytes id timestamp payload ∈ signatures := by
  have hinner : ∀ (expected : Bytes) (signatures : List Bytes) (start : Bool),
      signatures.foldl (fun matched signature => decide (expected = signature) || matched) start =
        true ↔ start = true ∨ expected ∈ signatures := by
    intro expected signatures
    induction signatures with
    | nil => simp
    | cons signature rest ih =>
      intro start
      rw [List.foldl_cons, ih, List.mem_cons, Bool.or_eq_true, decide_eq_true_eq]
      tauto
  have houter : ∀ (secrets : List Key) (start : Bool),
      secrets.foldl (fun matched key =>
        let expected := signDigest hmac key.bytes id timestamp payload
        signatures.foldl (fun matched signature => decide (expected = signature) || matched)
          matched) start = true ↔
        start = true ∨ ∃ key ∈ secrets, signDigest hmac key.bytes id timestamp payload ∈
          signatures := by
    intro secrets
    induction secrets with
    | nil => simp
    | cons key rest ih =>
      intro start
      rw [List.foldl_cons, ih, hinner, List.exists_mem_cons_iff, or_assoc]
  rw [matched, houter]
  simp

theorem parseToken_some {token signature : Bytes} : parseToken decode token = some signature ↔
    ∃ encoded, token = signatureVersion ++ comma :: encoded ∧ decode encoded = some signature ∧
      signature.length = hmacSignatureSize := by
  have hversion : comma ∉ signatureVersion := by decide
  unfold parseToken
  split
  · rename_i version encoded hcut
    have htoken := Text.eq_of_cut hcut
    constructor
    · intro h
      split at h
      · rename_i heq
        obtain ⟨decoded, hdecoded, hlength⟩ := Option.bind_eq_some_iff.mp h
        split at hlength <;> cases hlength
        exact ⟨encoded, heq ▸ htoken, hdecoded, ‹_›⟩
      · cases h
    · rintro ⟨encoded', rfl, hdecoded, hlength⟩
      rw [Text.cut_append hversion] at hcut
      cases hcut
      simp [hdecoded, hlength]
  · rename_i hnone
    refine ⟨by simp, ?_⟩
    rintro ⟨encoded, rfl, -⟩
    rw [Text.cut_append hversion] at hnone
    cases hnone

/-- The loop over tokens keeps every signature, as long as there are not too many tokens. -/
theorem scanTokens_ok {r : Nat × List Bytes} :
    scanTokens decode tokens tokenCount signatures = .ok r ↔
      (tokens ≠ [] → tokenCount + tokens.length ≤ maxSignatureCount) ∧
      r = (tokenCount + tokens.length, signatures ++ tokens.filterMap (parseToken decode)) := by
  induction tokens generalizing tokenCount signatures with
  | nil => simp [scanTokens, eq_comm]
  | cons token tokens ih =>
    simp only [scanTokens]
    split
    · rename_i hmany
      refine ⟨by simp, ?_⟩
      rintro ⟨hfew, -⟩
      have := hfew (List.cons_ne_nil _ _)
      simp only [List.length_cons] at this
      omega
    · rename_i hfew
      rw [ih]
      cases hsome : parseToken decode token <;>
        simp only [List.length_cons, List.filterMap_cons, hsome, Option.toList_none,
          Option.toList_some, List.append_nil, List.append_assoc, List.singleton_append,
          List.cons_ne_nil, ne_eq, not_false_eq_true, forall_const, Nat.add_assoc,
          Nat.add_comm 1]
      all_goals
        refine and_congr_left fun _ => ?_
        constructor
        · intro h
          cases tokens with
          | nil => simp only [List.length_nil]; omega
          | cons => exact h (List.cons_ne_nil _ _)
        · intro h _
          exact h

/-- The tokens of the signature header. -/
def signatureTokens (headers : Header) : List Bytes :=
  (headers.values headerSignature).flatMap (Text.fields Text.spaceLength)

theorem scanValues_ok (h : scanValues decode values totalBytes tokenCount signatures = .ok found) :
    found = signatures ++
      (values.flatMap (Text.fields Text.spaceLength)).filterMap (parseToken decode) := by
  induction values generalizing totalBytes tokenCount signatures with
  | nil =>
    cases h
    simp
  | cons value values ih =>
    simp only [scanValues] at h
    split at h
    · cases h
    · obtain ⟨r, hr, hrest⟩ := bind_ok.mp h
      obtain ⟨-, rfl⟩ := scanTokens_ok.mp hr
      rw [ih hrest, List.flatMap_cons, List.filterMap_append, List.append_assoc]

theorem parseSignatures_ok (h : parseSignatures decode headers = .ok found) :
    found = (signatureTokens headers).filterMap (parseToken decode) := by
  unfold parseSignatures at h
  split at h
  · cases h
  · obtain ⟨signatures, hs, hrest⟩ := bind_ok.mp h
    obtain ⟨u, -, hfound⟩ := bind_ok.mp hrest
    cases hfound
    exact scanValues_ok hs

end Inversion

end Fries.Webhook
