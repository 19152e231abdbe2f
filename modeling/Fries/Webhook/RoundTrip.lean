import Fries.Webhook.Soundness

/-!
Headers that a signer makes are accepted by a verifier that shares a secret with it.
-/
namespace Fries.Webhook

variable {hmac : Bytes → Bytes → Bytes} {decode : Bytes → Option Bytes} {s : Signer}
  {v : Verifier} {id timestamp payload : Bytes} {signed clock : Int}

theorem unix_spec (hsince : unixEpoch ≤ signed) (hrange : signed < 9223372036854775808 * second) :
    0 ≤ unix signed ∧ unix signed < 9223372036854775808 ∧
      unixTime (unix signed) = signed / second * second := by
  have hsecond : second = 1000000000 := rfl
  have hepoch : unixEpoch = 62135596800000000000 := rfl
  simp only [unix, unixTime, wrap64, hsecond, hepoch] at hsince hrange ⊢
  omega

theorem timeSub_close {t u : Int} {tolerance : Int64} (h : Close t u tolerance.toInt) :
    timeSub t u ≤ tolerance.toInt ∧ -tolerance.toInt ≤ timeSub t u := by
  have hlt := tolerance.toInt_lt
  obtain ⟨hlow, hhigh⟩ := h
  have hmax : maxInt64 = 9223372036854775807 := rfl
  simp only [timeSub, hmax]
  split
  · omega
  · split <;> omega

theorem ne_nil_of_valid (h : validMessageID id = true) : id ≠ [] := by
  rintro rfl
  cases h

theorem formatInt_ne_nil {n : Int} (hpos : 0 ≤ n) (hlt : n < 9223372036854775808) :
    Text.formatInt n ≠ [] := by
  intro hnil
  have hparsed := Text.parseInt_formatInt hpos hlt
  rw [hnil] at hparsed
  cases hparsed

section Tokens

variable (hhmac : ∀ key message, (hmac key message).length = hmacSignatureSize) {secrets : List Key}
include hhmac

theorem length_signature (key : Key) :
    (signature hmac id timestamp payload key).length = 47 := by
  simp [signature, signatureVersion, Text.ascii, Base64.length_encode, signDigest, hhmac,
    hmacSignatureSize]

omit hhmac in
theorem signature_visible (key : Key) :
    ∀ b ∈ signature hmac id timestamp payload key, Text.Visible b := by
  intro b hb
  rcases List.mem_append.mp hb with hversion | hrest
  · have hall : ∀ b ∈ signatureVersion, 33 ≤ b.toNat ∧ b.toNat ≤ 126 := by
      simp [signatureVersion, Text.ascii]
    exact hall b hversion
  · rcases List.mem_cons.mp hrest with rfl | hencoded
    · exact ⟨by decide, by decide⟩
    · exact Base64.encode_visible hencoded

theorem parseToken_signature (hdecode : ∀ data, decode (Base64.encode data) = some data)
    (key : Key) : parseToken decode (signature hmac id timestamp payload key) =
      some (signDigest hmac key.bytes id timestamp payload) :=
  parseToken_some.mpr ⟨_, rfl, hdecode _, hhmac _ _⟩

/-- The value of the signature header splits into the signatures. -/
theorem fields_signatures (secrets : List Key) :
    Text.fields Text.spaceLength
      (List.intercalate [space] (secrets.map (signature hmac id timestamp payload))) =
      secrets.map (signature hmac id timestamp payload) := by
  refine Text.fields_intercalate (fun rest => Text.spaceLength_space) fun word hword => ?_
  obtain ⟨key, -, rfl⟩ := List.mem_map.mp hword
  refine ⟨?_, Text.solid_of_visible (signature_visible key)⟩
  rw [← List.length_pos_iff, length_signature hhmac]
  decide

/-- The signatures of a header are read back as they were written, if there are not too many. -/
theorem scanValues_signatures (hdecode : ∀ data, decode (Base64.encode data) = some data)
    (hfew : secrets.length ≤ maxSignatureCount) :
    scanValues decode [List.intercalate [space] (secrets.map (signature hmac id timestamp payload))]
      0 0 [] = .ok (secrets.map fun key => signDigest hmac key.bytes id timestamp payload) := by
  have hwords : ∀ word ∈ secrets.map (signature hmac id timestamp payload), word.length ≤ 47 := by
    intro word hword
    obtain ⟨key, -, rfl⟩ := List.mem_map.mp hword
    exact Nat.le_of_eq (length_signature hhmac key)
  have hlength := Text.length_intercalate_le (s := space) hwords
  rw [List.length_map] at hlength
  have hsmall : ¬ maxSignatureHeaderBytes < 0 +
      (List.intercalate [space] (secrets.map (signature hmac id timestamp payload))).length := by
    simp only [maxSignatureHeaderBytes, maxSignatureCount] at hfew ⊢
    omega
  have hscan : scanTokens decode (secrets.map (signature hmac id timestamp payload)) 0 [] =
      .ok (_, _) := scanTokens_ok.mpr ⟨fun _ => by simpa using hfew, rfl⟩
  have hall : (secrets.map (signature hmac id timestamp payload)).filterMap (parseToken decode) =
      secrets.map fun key => signDigest hmac key.bytes id timestamp payload := by
    rw [List.filterMap_map, ← List.filterMap_eq_map]
    exact List.filterMap_congr fun key _ => parseToken_signature hhmac hdecode key
  simp only [scanValues, if_neg hsmall, fields_signatures hhmac, hscan, bind, Except.bind, hall,
    List.nil_append]

/-- A header with more signatures than a verifier reads is refused. -/
theorem scanValues_many (hmany : maxSignatureCount < secrets.length) (found : List Bytes) :
    scanValues decode [List.intercalate [space] (secrets.map (signature hmac id timestamp payload))]
      0 0 [] ≠ .ok found := by
  intro h
  simp only [scanValues] at h
  split at h
  · cases h
  · obtain ⟨r, hr, -⟩ := bind_ok.mp h
    rw [fields_signatures hhmac] at hr
    obtain ⟨hfew, -⟩ := scanTokens_ok.mp hr
    have hne : secrets.map (signature hmac id timestamp payload) ≠ [] := by
      rw [← List.length_pos_iff, List.length_map]
      omega
    have hcount := hfew hne
    rw [List.length_map] at hcount
    omega

end Tokens

/-- The headers that `Sign` makes. -/
def signedHeaders (hmac : Bytes → Bytes → Bytes) (secrets : List Key) (id timestamp payload : Bytes) :
    Header :=
  ((emptyHeader.set headerID id).set headerTimestamp timestamp).set headerSignature
    (List.intercalate [space] (secrets.map (signature hmac id timestamp payload)))

theorem sign_eq (hid : validMessageID id = true) : s.sign hmac signed id payload =
    .ok (signedHeaders hmac s.secrets id (Text.formatInt (unix signed)) payload) := if_pos hid

section Values

variable (hmac : Bytes → Bytes → Bytes) (secrets : List Key) (id timestamp payload : Bytes)

theorem values_id : (signedHeaders hmac secrets id timestamp payload).values headerID = [id] := by
  rw [signedHeaders, values_set_of_ne (by decide), values_set_of_ne (by decide), values_set]

theorem values_timestamp :
    (signedHeaders hmac secrets id timestamp payload).values headerTimestamp = [timestamp] := by
  rw [signedHeaders, values_set_of_ne (by decide), values_set]

theorem values_signature :
    (signedHeaders hmac secrets id timestamp payload).values headerSignature =
      [List.intercalate [space] (secrets.map (signature hmac id timestamp payload))] := by
  rw [signedHeaders, values_set]

end Values

/-- With few enough secrets, the headers are accepted by a verifier that shares one of them. -/
theorem accepted_of_few (hhmac : ∀ key message, (hmac key message).length = hmacSignatureSize)
    (hdecode : ∀ data, decode (Base64.encode data) = some data)
    (hfew : s.secrets.length ≤ maxSignatureCount)
    (hshared : ∃ key ∈ s.secrets, ∃ key' ∈ v.secrets, key.bytes = key'.bytes)
    (hsince : unixEpoch ≤ signed) (hrange : signed < 9223372036854775808 * second)
    (hclose : Close clock (signed / second * second) v.tolerance.toInt)
    (hid : validMessageID id = true) :
    ∃ headers, s.sign hmac signed id payload = .ok headers ∧
      v.verify hmac decode clock headers payload = .ok ⟨id, signed / second * second⟩ := by
  obtain ⟨hpos, hlt, hinstant⟩ := unix_spec hsince hrange
  obtain ⟨key, hkey, key', hkey', hbytes⟩ := hshared
  let timestamp := Text.formatInt (unix signed)
  let digests := s.secrets.map fun key => signDigest hmac key.bytes id timestamp payload
  have hsignatures : parseSignatures decode (signedHeaders hmac s.secrets id timestamp payload) =
      .ok digests := by
    have hsome : digests ≠ [] := by simpa [digests] using List.ne_nil_of_mem hkey
    simp only [parseSignatures, values_signature, scanValues_signatures hhmac hdecode hfew, bind,
      Except.bind, refuseIf]
    rw [if_neg hsome]
    rfl
  have hmatched : signDigest hmac key'.bytes id timestamp payload ∈ digests :=
    List.mem_map.mpr ⟨key, hkey, by rw [hbytes]⟩
  refine ⟨_, sign_eq hid, verify_ok.mpr ⟨id, timestamp, unix signed, digests, ?_, hid, ?_,
    parseTimestamp_ok.mpr ⟨Text.parseInt_formatInt hpos hlt, hpos⟩,
    timeSub_close (hinstant ▸ hclose), hsignatures, matched_iff.mpr ⟨key', hkey', hmatched⟩,
    by rw [hinstant]⟩⟩
  · exact requiredSingleHeader_ok.mpr ⟨values_id .., ne_nil_of_valid hid⟩
  · exact requiredSingleHeader_ok.mpr ⟨values_timestamp .., formatInt_ne_nil hpos hlt⟩

/-- Only the headers of a signer with that few secrets are accepted. -/
theorem few_of_accepted {headers : Header} {m : Metadata}
    (hhmac : ∀ key message, (hmac key message).length = hmacSignatureSize)
    (hid : validMessageID id = true) (hsign : s.sign hmac signed id payload = .ok headers)
    (h : v.verify hmac decode clock headers payload = .ok m) :
    s.secrets.length ≤ maxSignatureCount := by
  by_contra hmany
  cases (sign_eq hid).symm.trans hsign
  obtain ⟨-, -, -, signatures, -, -, -, -, -, hs, -⟩ := verify_ok.mp h
  simp only [parseSignatures, values_signature] at hs
  obtain ⟨found, hfound, -⟩ := bind_ok.mp hs
  exact scanValues_many hhmac (Nat.lt_of_not_le hmany) found hfound

/-- A verifier that shares a secret with a signer accepts its timely headers exactly if the signer
has at most as many secrets as a verifier reads signatures. -/
theorem signed_is_accepted (hmac : Bytes → Bytes → Bytes) (decode : Bytes → Option Bytes)
    (hhmac : ∀ key message, (hmac key message).length = hmacSignatureSize)
    (hdecode : ∀ data, decode (Base64.encode data) = some data) (s : Signer) (v : Verifier)
    (hshared : ∃ key ∈ s.secrets, ∃ key' ∈ v.secrets, key.bytes = key'.bytes)
    (signed clock : Int) (hsince : unixEpoch ≤ signed)
    (hrange : signed < 9223372036854775808 * second)
    (hclose : Close clock (signed / second * second) v.tolerance.toInt) (id payload : Bytes)
    (hid : validMessageID id = true) :
    (∃ headers, s.sign hmac signed id payload = .ok headers ∧
      v.verify hmac decode clock headers payload = .ok ⟨id, signed / second * second⟩) ↔
      s.secrets.length ≤ maxSignatureCount := by
  constructor
  · rintro ⟨headers, hsign, haccepted⟩
    exact few_of_accepted hhmac hid hsign haccepted
  · intro hfew
    exact accepted_of_few hhmac hdecode hfew hshared hsince hrange hclose hid

/-- A signer with a primary and 32 additional secrets makes headers that a verifier with the same
primary secret refuses at the same instant. -/
theorem signed_by_many_refused :
    ∃ s v headers, newSigner zeroSecret [some ⟨List.replicate 32 zeroSecret⟩] = .ok s ∧
      newVerifier zeroSecret [] = .ok v ∧
      (∃ key ∈ s.secrets, ∃ key' ∈ v.secrets, key.bytes = key'.bytes) ∧
      s.sign (fun _ _ => zeroDigest) year2027 (Text.ascii "a") [] = .ok headers ∧
      ∀ m, v.verify (fun _ _ => zeroDigest) Base64.decode year2027 headers [] ≠ .ok m := by
  let key : Key := ⟨zeroSecret.key, by decide⟩
  let s : Signer := ⟨List.replicate 33 key⟩
  have hsign : s.sign (fun _ _ => zeroDigest) year2027 (Text.ascii "a") [] =
      .ok (signedHeaders (fun _ _ => zeroDigest) s.secrets (Text.ascii "a")
        (Text.formatInt (unix year2027)) []) := sign_eq (by decide)
  refine ⟨s, zeroVerifier defaultTolerance defaultTolerance_pos, _, rfl,
    rfl, ⟨key, List.mem_cons_self, key, List.mem_cons_self, rfl⟩, hsign, fun m h => ?_⟩
  have hfew := few_of_accepted (fun _ _ => rfl) (by decide) hsign h
  simp [s, maxSignatureCount] at hfew

theorem signed_is_accepted_rotated :
    ∃ headers, Signer.sign (fun _ _ => zeroDigest) ⟨[⟨List.replicate 32 1, by decide⟩,
        ⟨zeroSecret.key, by decide⟩]⟩ year2027 (Text.ascii "a") [] = .ok headers ∧
      (zeroVerifier defaultTolerance defaultTolerance_pos).verify (fun _ _ => zeroDigest)
        Base64.decode (year2027 + second) headers [] =
          .ok ⟨Text.ascii "a", year2027 / second * second⟩ :=
  (signed_is_accepted (fun _ _ => zeroDigest) Base64.decode (fun _ _ => rfl) Base64.decode_encode _
    (zeroVerifier defaultTolerance defaultTolerance_pos)
    ⟨_, List.mem_cons_of_mem _ List.mem_cons_self, _, List.mem_cons_self, rfl⟩ year2027
    (year2027 + second) (by decide) (by decide) ⟨by decide, by decide⟩ _ _ (by decide)).mpr
    (by decide)

end Fries.Webhook
