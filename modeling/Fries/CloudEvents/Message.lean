import Fries.Go
import Fries.Lib.Table

/-! CloudEvents in binary mode over AMQP. Most of the SDK is a parameter. -/
namespace Fries.CloudEvents

/-- The Go values that occur as attributes, extensions and headers. -/
inductive Value
  | bool (b : Bool)
  | int32 (n : Int32)
  | int64 (n : Int64)
  | string (s : String)
  | binary (data : Bytes)
  | uri (s : String)
  | uriRef (s : String)
  | timestamp (t : Int)
  | time (t : Int)
  | other
  deriving DecidableEq

inductive Error
  | invalidValue
  | notBinary
  | assignmentToNilMap
  deriving DecidableEq

/-- `types.Validate`: the CloudEvents value that a Go value stands for. -/
def validate : Value → Except Error Value
  | .int64 n =>
    if -2147483648 ≤ n.toInt ∧ n.toInt < 2147483648 then .ok (.int32 n.toInt32)
    else .error .invalidValue
  | .time t => .ok (.timestamp t)
  | .other => .error .invalidValue
  | v => .ok v

/-- The versions of CloudEvents that the SDK has. -/
inductive Version
  | v03
  | v1
  deriving DecidableEq

/-- The kinds of context attributes. -/
inductive Kind
  | id
  | source
  | specVersion
  | type
  | dataContentType
  | dataSchema
  | subject
  | time
  deriving DecidableEq, Repr

abbrev Name := List Char

/-- An attribute of a version, which has its own names. -/
structure Attribute where
  version : Version
  kind : Kind
  deriving DecidableEq

def Attribute.name (a : Attribute) : Name :=
  match a.kind with
  | .id => "id".toList
  | .source => "source".toList
  | .specVersion => "specversion".toList
  | .type => "type".toList
  | .dataContentType => "datacontenttype".toList
  | .dataSchema => if a.version = .v03 then "schemaurl".toList else "dataschema".toList
  | .subject => "subject".toList
  | .time => "time".toList

def Kind.all : List Kind :=
  [.id, .source, .specVersion, .type, .dataContentType, .dataSchema, .subject, .time]

/-- The name of an attribute in version 1.0, which messages are read with. -/
def Kind.name (kind : Kind) : Name := (Attribute.mk .v1 kind).name

/-- Lower-case letters and digits. -/
def isPlainName (name : Name) : Bool :=
  !name.isEmpty && name.all fun c => c.isLower || c.isDigit

/-- What a message is read into. A missing value is nil. -/
structure BinaryWriter (σ : Type) where
  setAttribute : Attribute → Option Value → σ → Except Error σ
  setExtension : Name → Option Value → σ → Except Error σ
  setData : Bytes → σ → Except Error σ

/-- An attribute of an event is a text or an instant. -/
def Value.isAttribute : Value → Bool
  | .string _ | .time _ => true
  | _ => false

/-- The value of an extension after the SDK has validated it. -/
def Value.isCanonical : Value → Bool
  | .int64 _ | .time _ | .other => false
  | _ => true

/-- What can be set of an event apart from its data. -/
inductive Target
  | attr (kind : Kind)
  | extension (name : Name)
  deriving DecidableEq

def Target.name (version : Version) : Target → Name
  | .attr kind => (Attribute.mk version kind).name
  | .extension name => name

/-- An extension has a name of lower-case letters and digits that is not that of an attribute. -/
def Target.admits (version : Version) : Target → Value → Bool
  | .attr _, v => v.isAttribute
  | .extension name, v => v.isCanonical && isPlainName name &&
    Kind.all.all fun kind => (Attribute.mk version kind).name != name

/-- A valid event: what is set of it, each at most once and the required attributes among it. -/
structure Event where
  version : Version
  items : List (Target × Value)
  data : Bytes
  nodup : (items.map Prod.fst).Nodup
  required : ∀ kind ∈ [Kind.id, .source, .specVersion, .type], .attr kind ∈ items.map Prod.fst
  admits : ∀ p ∈ items, p.1.admits version p.2 = true

/-- A call of a writer. -/
inductive Write
  | attr (a : Attribute) (value : Option Value)
  | extension (name : Name) (value : Option Value)
  | data (bytes : Bytes)

def Target.write (version : Version) (value : Value) : Target → Write
  | .attr kind => .attr ⟨version, kind⟩ (some value)
  | .extension name => .extension name (some value)

section Reading

variable {σ : Type} (writer : BinaryWriter σ)

def Write.apply : Write → σ → Except Error σ
  | .attr a value => writer.setAttribute a value
  | .extension name value => writer.setExtension name value
  | .data bytes => writer.setData bytes

/-- Calls of a writer, up to the first error. -/
def written : List Write → σ → Except Error σ
  | [], s => .ok s
  | w :: writes, s => do
    let s ← w.apply writer s
    written writes s

/-- `EventMessage.ReadBinary`, which passes on what is set, and data if there is some. -/
def Event.readBinary (e : Event) (s : σ) : Except Error σ := do
  let s ← written writer (e.items.map fun p => p.1.write e.version p.2) s
  if e.data.isEmpty then .ok s else writer.setData e.data s

end Reading

/-- What is not modelled: `types.Format`, whether `format.Lookup` finds a format for a content type,
and `strings.ToLower`. -/
structure SDK where
  format : Value → Except Error String
  lookup : String → Bool
  toLower : Name → Name

/-- What is assumed of it. -/
structure SDK.Lawful (sdk : SDK) : Prop where
  lookup_empty : sdk.lookup "" = false
  toLower_plain : ∀ name, isPlainName name = true → sdk.toLower name = name
  toLower_toLower : ∀ name, sdk.toLower (sdk.toLower name) = sdk.toLower name

/-- `Attribute` of version 1.0, which finds a name however it is spelled. -/
def SDK.attribute (sdk : SDK) (name : Name) : Option Kind :=
  Kind.all.find? fun kind => kind.name = sdk.toLower name

/-- The prefix of headers that belong to an event. -/
def headerPrefix : Name := "ce-".toList

abbrev Headers := Name → Option Value

def noHeaders : Headers := fun _ => none

/-- What the writer fills in of a publishing. The headers can be a nil map. -/
structure Publishing where
  contentType : String
  headers : Option Headers
  body : Bytes

/-- The value that goes into a header. -/
def safeAMQPHeadersUnwrap (value : Value) : Except Error Value := do
  match ← validate value with
  | .uri s => .ok (.string s)
  | .uriRef s => .ok (.string s)
  | .timestamp t => .ok (.time t)
  | .int32 n => .ok (.int64 n.toInt64)
  | v => .ok v

/-- `amqpMessageWriter`. -/
def amqpMessageWriter (sdk : SDK) : BinaryWriter Publishing where
  setAttribute a value p :=
    if a.kind = .dataContentType then
      match value with
      | none => .ok { p with contentType := "" }
      | some value => do
        let s ← sdk.format value
        .ok { p with contentType := s }
    else
      match value with
      | none =>
        let key := headerPrefix ++ a.name
        .ok { p with headers := p.headers.map fun headers => Function.update headers key none }
      | some value => do
        let v ← safeAMQPHeadersUnwrap value
        match p.headers with
        | none => .error .assignmentToNilMap
        | some headers =>
          .ok { p with headers := some (Function.update headers (headerPrefix ++ a.name) v) }
  setExtension name value p :=
    match value with
    | none => .ok p
    | some value => do
      let headers := p.headers.getD noHeaders
      let v ← safeAMQPHeadersUnwrap value
      .ok { p with headers := some (Function.update headers (headerPrefix ++ name) v) }
  setData data p := .ok { p with body := data }

/-- `Start`, which makes the headers. -/
def start (p : Publishing) : Publishing := { p with headers := some (p.headers.getD noHeaders) }

/-- An event written to a fresh publishing. -/
def writeMessage (sdk : SDK) (e : Event) : Except Error Publishing :=
  e.readBinary (amqpMessageWriter sdk) (start ⟨"", none, []⟩)

/-- What the broker delivers of a publishing. -/
structure Delivery where
  contentType : String
  headers : Headers
  body : Bytes

def Publishing.deliver (p : Publishing) : Delivery :=
  ⟨p.contentType, p.headers.getD noHeaders, p.body⟩

/-- `strings.CutPrefix` with the prefix of headers. -/
def cutPrefix (key : Name) : Option Name :=
  if headerPrefix.isPrefixOf key then some (key.drop headerPrefix.length) else none

section Receiving

variable {σ : Type} (sdk : SDK) (writer : BinaryWriter σ) (d : Delivery)

/-- The loop over the headers, in the order in which the map gives its keys. -/
def readHeaders : List Name → σ → Except Error σ
  | [], s => .ok s
  | key :: keys, s =>
    match cutPrefix key, d.headers key with
    | some name, some v =>
      match sdk.attribute name with
      | some kind => do
        let s ← writer.setAttribute ⟨.v1, kind⟩ (some v) s
        readHeaders keys s
      | none => do
        let s ← writer.setExtension (sdk.toLower name) (some v) s
        readHeaders keys s
    | _, _ => readHeaders keys s

/-- `Message.ReadBinary`. -/
def Delivery.readBinary (keys : List Name) (s : σ) : Except Error σ :=
  if sdk.lookup d.contentType = true then .error .notBinary
  else do
    let s ← readHeaders sdk writer d keys s
    writer.setData d.body s

end Receiving

/-- The keys of the headers, each once and in any order. -/
def Headers.Keys (headers : Headers) (keys : List Name) : Prop :=
  keys.Nodup ∧ ∀ key, key ∈ keys ↔ (headers key).isSome = true

/-- What has been set of an event. -/
structure Content where
  sets : Target → Option Value
  data : Bytes

def Content.empty : Content := ⟨fun _ => none, []⟩

/-- The content once a target was set, to a CloudEvents value. -/
def Content.set (c : Content) (t : Target) (value : Value) : Except Error Content := do
  let v ← validate value
  .ok { c with sets := Function.update c.sets t (some v) }

/-- A writer that keeps what was set. -/
def recorder : BinaryWriter Content where
  setAttribute a value c :=
    match value with
    | none => .ok { c with sets := Function.update c.sets (.attr a.kind) none }
    | some value => c.set (.attr a.kind) value
  setExtension name value c :=
    match value with
    | none => .ok c
    | some value => c.set (.extension name) value
  setData data c := .ok { c with data }

end Fries.CloudEvents
