import Fries.Webhook.Verifier

/-! What a message that is accepted carries, and that it was signed with a secret. -/
namespace Fries.Webhook

variable {hmac : Bytes → Bytes → Bytes} {decode : Bytes → Option Bytes} {v : Verifier}
  {id id' timestamp timestamp' payload payload' : Bytes} {seconds now tolerance : Int}

/-- Two instants are no further apart than a tolerance. -/
def Close (t u tolerance : Int) : Prop := -tolerance ≤ t - u ∧ t - u ≤ tolerance

theorem stop_not_mem_id (h : validMessageID id = true) : stop ∉ id := by
  intro hmem
  simp only [validMessageID, Bool.and_eq_true, List.all_eq_true] at h
  exact absurd (h.2 stop hmem) (by decide)

theorem stop_not_mem_timestamp (h : Text.parseInt timestamp = some seconds) :
    stop ∉ timestamp := by
  intro hmem
  rcases Text.mem_of_parseInt h stop hmem with hdigit | hplus | hminus
  · exact absurd hdigit (by decide)
  · exact absurd hplus (by decide)
  · exact absurd hminus (by decide)

/-- The signed bytes determine what they are made of. -/
theorem signedBytes_inj (hid : stop ∉ id) (hid' : stop ∉ id') (ht : stop ∉ timestamp)
    (ht' : stop ∉ timestamp')
    (h : signedBytes id timestamp payload = signedBytes id' timestamp' payload') :
    id = id' ∧ timestamp = timestamp' ∧ payload = payload' := by
  obtain ⟨rfl, hrest⟩ := Text.append_cons_inj hid hid' h
  exact ⟨rfl, Text.append_cons_inj ht ht' hrest⟩

/-- A timestamp that passes the check of the tolerance is tolerable exactly if it is no further from
the clock than the longest duration, where the difference stops. That is so unless the longest
duration is tolerated or a timestamp that wraps around meets a clock before the year 1. -/
theorem within_tolerance (hpos : 0 ≤ seconds) (hlt : seconds < 9223372036854775808)
    (hle : tolerance ≤ maxInt64) (hupper : timeSub now (unixTime seconds) ≤ tolerance)
    (hlower : -tolerance ≤ timeSub now (unixTime seconds)) :
    (Close now (unixEpoch + seconds * second) tolerance ↔
      Close now (unixEpoch + seconds * second) maxInt64) ∧
    (tolerance < maxInt64 → 0 ≤ now → unixTime seconds = unixEpoch + seconds * second ∧
      Close now (unixEpoch + seconds * second) tolerance) := by
  have hsecond : second = 1000000000 := rfl
  have hepoch : unixEpoch = 62135596800000000000 := rfl
  have hmax : maxInt64 = 9223372036854775807 := rfl
  simp only [timeSub, unixTime, wrap64, hsecond, hepoch, hmax] at hle hupper hlower ⊢
  simp only [Close]
  split at hupper
  · omega
  · split at hupper <;> omega

/-- An accepted message is well formed and signed with an accepted secret, it is timely exactly if
the difference from the clock is a duration, and its signed bytes determine identifier, timestamp
and payload. -/
theorem verify_sound (hmac : Bytes → Bytes → Bytes) (decode : Bytes → Option Bytes) (v : Verifier)
    (now : Int) :
    (∀ headers payload m, v.verify hmac decode now headers payload = .ok m →
      ∃ id timestamp seconds,
        headers.values headerID = [id] ∧ headers.values headerTimestamp = [timestamp] ∧
        validMessageID id = true ∧
        Text.parseInt timestamp = some seconds ∧ 0 ≤ seconds ∧
        (Close now (unixEpoch + seconds * second) v.tolerance.toInt ↔
          Close now (unixEpoch + seconds * second) maxInt64) ∧
        (∃ key ∈ v.secrets, ∃ token ∈ signatureTokens headers, ∃ encoded,
          token = signatureVersion ++ comma :: encoded ∧
          decode encoded = some (hmac key.bytes (signedBytes id timestamp payload))) ∧
        m = ⟨id, unixTime seconds⟩ ∧
        (v.tolerance.toInt < maxInt64 → 0 ≤ now →
          unixTime seconds = unixEpoch + seconds * second ∧
          Close now (unixEpoch + seconds * second) v.tolerance.toInt)) ∧
    ∀ (v' : Verifier) now' headers payload m headers' payload' m' id timestamp id' timestamp',
      v.verify hmac decode now headers payload = .ok m →
      v'.verify hmac decode now' headers' payload' = .ok m' →
      headers.values headerID = [id] → headers.values headerTimestamp = [timestamp] →
      headers'.values headerID = [id'] → headers'.values headerTimestamp = [timestamp'] →
      signedBytes id timestamp payload = signedBytes id' timestamp' payload' →
      id = id' ∧ timestamp = timestamp' ∧ payload = payload' := by
  constructor
  · intro headers payload m h
    obtain ⟨id, timestamp, seconds, signatures, hid, hvalid, ht, hseconds, hclose, hs, hm, rfl⟩ :=
      verify_ok.mp h
    obtain ⟨hparsed, hpos⟩ := parseTimestamp_ok.mp hseconds
    have hle : v.tolerance.toInt ≤ maxInt64 := Int.le_of_lt_add_one v.tolerance.toInt_lt
    obtain ⟨hiff, hordinary⟩ := within_tolerance hpos (Text.parseInt_lt hparsed) hle hclose.1
      hclose.2
    refine ⟨id, timestamp, seconds, (requiredSingleHeader_ok.mp hid).1,
      (requiredSingleHeader_ok.mp ht).1, hvalid, hparsed, hpos, hiff, ?_, rfl, hordinary⟩
    obtain ⟨key, hkey, hmem⟩ := matched_iff.mp hm
    rw [parseSignatures_ok hs] at hmem
    obtain ⟨token, htoken, hsome⟩ := List.mem_filterMap.mp hmem
    obtain ⟨encoded, heq, hdecoded, -⟩ := parseToken_some.mp hsome
    exact ⟨key, hkey, token, htoken, encoded, heq, hdecoded⟩
  · intro v' now' headers payload m headers' payload' m' id timestamp id' timestamp' h h' hid ht
      hid' ht' hsigned
    have hstops : ∀ {v : Verifier} {now headers payload m id timestamp},
        v.verify hmac decode now headers payload = .ok m → headers.values headerID = [id] →
        headers.values headerTimestamp = [timestamp] → stop ∉ id ∧ stop ∉ timestamp := by
      intro v now headers payload m id timestamp h hid ht
      obtain ⟨id₀, timestamp₀, seconds, -, hid₀, hvalid, ht₀, hseconds, -⟩ := verify_ok.mp h
      cases hid.symm.trans (requiredSingleHeader_ok.mp hid₀).1
      cases ht.symm.trans (requiredSingleHeader_ok.mp ht₀).1
      exact ⟨stop_not_mem_id hvalid, stop_not_mem_timestamp (parseTimestamp_ok.mp hseconds).1⟩
    obtain ⟨hfree, hfree₁⟩ := hstops h hid ht
    obtain ⟨hfree', hfree₁'⟩ := hstops h' hid' ht'
    exact signedBytes_inj hfree hfree' hfree₁ hfree₁' hsigned

/-- A key of zeros. -/
def zeroSecret : Secret := ⟨List.replicate 24 0⟩

/-- A message with the given timestamp and one signature. -/
def messageAt (timestamp : Bytes) : Header :=
  ((emptyHeader.set headerID (Text.ascii "a")).set headerTimestamp timestamp).set headerSignature
    (Text.ascii "v1,AA==")

/-- The start of 2027 on the clock. -/
def year2027 : Int := unixEpoch + 1798761600 * second

/-- The digest of every message. -/
def zeroDigest : Bytes := List.replicate 32 0

/-- A verifier that accepts the key of zeros. -/
def zeroVerifier (tolerance : Int64) (h : 0 < tolerance.toInt) : Verifier :=
  ⟨[⟨zeroSecret.key, by decide⟩], tolerance, h⟩

/-- The message is accepted if its timestamp passes. -/
theorem accepts_message {tolerance : Int64} (hpos : 0 < tolerance.toInt) {timestamp : Bytes}
    {seconds : Int} (hparsed : Text.parseInt timestamp = some seconds) (hseconds : 0 ≤ seconds)
    (hne : timestamp ≠ []) (hupper : timeSub year2027 (unixTime seconds) ≤ tolerance.toInt)
    (hlower : -tolerance.toInt ≤ timeSub year2027 (unixTime seconds)) :
    (zeroVerifier tolerance hpos).verify (fun _ _ => zeroDigest) (fun _ => some zeroDigest)
      year2027 (messageAt timestamp) [] = .ok ⟨Text.ascii "a", unixTime seconds⟩ := by
  refine verify_ok.mpr ⟨_, timestamp, seconds, [zeroDigest], ?_, by decide, ?_,
    parseTimestamp_ok.mpr ⟨hparsed, hseconds⟩, ⟨hupper, hlower⟩, rfl, rfl, rfl⟩
  · exact requiredSingleHeader_ok.mpr ⟨rfl, by decide⟩
  · exact requiredSingleHeader_ok.mpr ⟨rfl, hne⟩

/-- With the longest duration as tolerance, a message is accepted whose timestamp lies 292 billion
years in the future. -/
theorem timestamp_beyond_tolerance :
    ∃ v m seconds, newVerifier zeroSecret [some (.withTolerance 9223372036854775807)] = .ok v ∧
      v.verify (fun _ _ => zeroDigest) (fun _ => some zeroDigest) year2027
        (messageAt (Text.ascii "9223372036854775807")) [] = .ok m ∧
      Text.parseInt (Text.ascii "9223372036854775807") = some seconds ∧
      ¬ Close year2027 (unixEpoch + seconds * second) v.tolerance.toInt := by
  refine ⟨_, _, 9223372036854775807, rfl,
    accepts_message (by decide) rfl (by decide) (by decide) (by decide) (by decide), rfl, ?_⟩
  rintro ⟨hlow, -⟩
  exact absurd hlow (by decide)

theorem verify_sound_recent :
    ∃ id timestamp seconds, (messageAt (Text.ascii "1798761599")).values headerID = [id] ∧
      (messageAt (Text.ascii "1798761599")).values headerTimestamp = [timestamp] ∧
      Text.parseInt timestamp = some seconds ∧
      Close year2027 (unixEpoch + seconds * second) defaultTolerance.toInt := by
  obtain ⟨hsound, -⟩ := verify_sound (fun _ _ => zeroDigest) (fun _ => some zeroDigest)
    (zeroVerifier defaultTolerance defaultTolerance_pos) year2027
  obtain ⟨id, timestamp, seconds, hid, ht, -, hparsed, -, -, -, -, hordinary⟩ := hsound
    (messageAt (Text.ascii "1798761599")) [] _
    (accepts_message defaultTolerance_pos rfl (by decide) (by decide) (by decide) (by decide))
  exact ⟨id, timestamp, seconds, hid, ht, hparsed, (hordinary (by decide) (by decide)).2⟩

end Fries.Webhook
