import Fries.Go
import Fries.Lib.Base64
import Fries.Lib.Text

/-! Secrets, headers and the signer of webhook messages. The HMAC is any function. -/
namespace Fries.Webhook

open Text (ascii)

/-- The errors a caller can tell apart with `errors.Is`. -/
inductive Sentinel
  | invalidSecret
  | invalidTolerance
  | invalidMessageID
  | missingHeader
  | invalidTimestamp
  | timestampOutsideTolerance
  | invalidSignature
  deriving DecidableEq, Repr

def Sentinel.text : Sentinel → String
  | .invalidSecret => "webhook: invalid secret"
  | .invalidTolerance => "webhook: invalid tolerance"
  | .invalidMessageID => "webhook: invalid message id"
  | .missingHeader => "webhook: missing required header"
  | .invalidTimestamp => "webhook: invalid timestamp"
  | .timestampOutsideTolerance => "webhook: timestamp outside tolerance"
  | .invalidSignature => "webhook: invalid signature"

/-- An error and the text `Error` gives. -/
structure Error where
  sentinel : Sentinel
  text : String
  deriving DecidableEq, Repr

def Sentinel.error (s : Sentinel) : Error := ⟨s, s.text⟩

/-- An error that wraps one of the above with a detail. -/
def Sentinel.detailed (s : Sentinel) (detail : String) : Error := ⟨s, s.text ++ ": " ++ detail⟩

section Secrets

def minSecretLength : Nat := 24
def maxSecretLength : Nat := 64

/-- A secret as a caller has it; its zero value has no key. -/
structure Secret where
  key : Bytes

/-- A key whose length was checked. -/
structure Key where
  bytes : Bytes
  length : minSecretLength ≤ bytes.length ∧ bytes.length ≤ maxSecretLength

def validateSecret (secret : Secret) : Except Error Key :=
  if h : minSecretLength ≤ secret.key.length ∧ secret.key.length ≤ maxSecretLength then
    .ok ⟨secret.key, h⟩
  else .error (Sentinel.invalidSecret.detailed "key length must be between 24 and 64 bytes")

/-- The keys with those of further secrets behind them. -/
def addSecrets (keys : List Key) : List Secret → Except Error (List Key)
  | [] => .ok keys
  | secret :: secrets => do
    let key ← validateSecret secret
    addSecrets (keys ++ [key]) secrets

end Secrets

section Headers

def headerID : String := "webhook-id"
def headerTimestamp : String := "webhook-timestamp"
def headerSignature : String := "webhook-signature"

/-- The values of each header by its canonical name. -/
abbrev Header := String → List Bytes

/-- `textproto.CanonicalMIMEHeaderKey`: a capital first and behind each hyphen. -/
def canonical : Bool → List Char → List Char
  | _, [] => []
  | first, c :: rest => (if first then c.toUpper else c.toLower) :: canonical (c == '-') rest

def canonicalKey (name : String) : String := String.ofList (canonical true name.toList)

def Header.values (h : Header) (name : String) : List Bytes := h (canonicalKey name)

def Header.set (h : Header) (name : String) (value : Bytes) : Header :=
  fun key => if key = canonicalKey name then [value] else h key

def emptyHeader : Header := fun _ => []

theorem values_set (h : Header) (name : String) (value : Bytes) :
    (h.set name value).values name = [value] := if_pos rfl

theorem values_set_of_ne {name other : String} (hne : canonicalKey other ≠ canonicalKey name)
    (h : Header) (value : Bytes) : (h.set name value).values other = h.values other := if_neg hne

end Headers

/-- The full stop. -/
def stop : UInt8 := 46

def comma : UInt8 := 44

def space : UInt8 := 32

def signatureVersion : Bytes := ascii "v1"

/-- A visible ASCII character other than a full stop. -/
def validByte (b : UInt8) : Bool := 33 ≤ b.toNat && b.toNat ≤ 126 && b != stop

def validMessageID (messageID : Bytes) : Bool := !messageID.isEmpty && messageID.all validByte

/-- The bytes that are signed. -/
def signedBytes (messageID timestamp payload : Bytes) : Bytes :=
  messageID ++ stop :: (timestamp ++ stop :: payload)

def signDigest (hmac : Bytes → Bytes → Bytes) (secret messageID timestamp payload : Bytes) : Bytes :=
  hmac secret (signedBytes messageID timestamp payload)

structure Signer where
  secrets : List Key

/-- `WithAdditionalSigningSecrets`. -/
structure SignerOption where
  withAdditionalSigningSecrets : List Secret

def SignerOption.apply (s : Signer) (option : SignerOption) : Except Error Signer := do
  let secrets ← addSecrets s.secrets option.withAdditionalSigningSecrets
  return ⟨secrets⟩

/-- Options that are nil are skipped. -/
def newSigner (secret : Secret) (options : List (Option SignerOption)) : Except Error Signer := do
  let key ← validateSecret secret
  (options.filterMap id).foldlM SignerOption.apply ⟨[key]⟩

def signature (hmac : Bytes → Bytes → Bytes) (messageID timestamp payload : Bytes) (key : Key) :
    Bytes :=
  signatureVersion ++ comma ::
    Base64.encode (signDigest hmac key.bytes messageID timestamp payload)

/-- The headers `Sign` makes at an instant. -/
def Signer.sign (hmac : Bytes → Bytes → Bytes) (s : Signer) (now : Int) (messageID payload : Bytes) :
    Except Error Header :=
  if validMessageID messageID = true then
    let timestamp := Text.formatInt (unix now)
    let signatures := s.secrets.map (signature hmac messageID timestamp payload)
    .ok (((emptyHeader.set headerID messageID).set headerTimestamp timestamp).set headerSignature
      (List.intercalate [space] signatures))
  else .error Sentinel.invalidMessageID.error

end Fries.Webhook
