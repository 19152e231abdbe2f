import Fries.CloudEvents.Message
import Mathlib.Data.List.Dedup

/-!
An event that is written to a publishing and read from its delivery, against the event read
directly.
-/
namespace Fries.CloudEvents

variable {sdk : SDK} {e : Event} {v : Value} {t : Target} {version : Version} {kind : Kind}
  {name : Name}

/-- The CloudEvents value of a valid value. -/
def canon : Value → Value
  | .int64 n => .int32 n.toInt32
  | .time t => .timestamp t
  | v => v

/-- The header of a CloudEvents value. -/
def wire : Value → Value
  | .uri s => .string s
  | .uriRef s => .string s
  | .timestamp t => .time t
  | .int32 n => .int64 n.toInt64
  | v => v

/-- A value that a header keeps: not a URI or a reference to one, which become texts. -/
def Value.isPlain : Value → Bool
  | .uri _ | .uriRef _ => false
  | _ => true

section

variable (h : v.isAttribute = true ∨ v.isCanonical = true)

include h

theorem validate_canon : validate v = .ok (canon v) := by
  cases v with
  | int64 | other => rcases h with h | h <;> cases h
  | _ => rfl

theorem unwrap_canon : safeAMQPHeadersUnwrap v = .ok (wire (canon v)) := by
  rw [safeAMQPHeadersUnwrap, validate_canon h]
  cases v with
  | int64 | other => rcases h with h | h <;> cases h
  | _ => rfl

theorem isCanonical_canon : (canon v).isCanonical = true := by
  cases v with
  | int64 | other => rcases h with h | h <;> cases h
  | _ => rfl

end

theorem valued (h : t.admits version v = true) :
    v.isAttribute = true ∨ v.isCanonical = true := by
  cases t with
  | attr kind => exact .inl h
  | extension name =>
    simp only [Target.admits, Bool.and_eq_true] at h
    exact .inr h.1.1

theorem validate_wire (hcanonical : v.isCanonical = true) :
    validate (wire v) = .ok (canon (wire v)) := by
  cases v with
  | int64 | time | other => cases hcanonical
  | int32 n =>
    refine if_pos ?_
    rw [Int32.toInt_toInt64]
    exact ⟨n.le_toInt, n.toInt_lt⟩
  | _ => rfl

theorem canon_wire (hcanonical : v.isCanonical = true) (hplain : v.isPlain = true) :
    canon (wire v) = v := by
  cases v with
  | int64 | time | other => cases hcanonical
  | uri | uriRef => cases hplain
  | int32 n => exact congrArg Value.int32 (Int32.toInt32_toInt64 n)
  | _ => rfl

theorem isPlain_canon (v : Value) : (canon v).isPlain = v.isPlain := by
  cases v <;> rfl

theorem isPlain_wire (v : Value) : (wire v).isPlain = true := by
  cases v <;> rfl

section Names

theorem isPlainName_name (a : Attribute) : isPlainName a.name = true := by
  obtain ⟨version, kind⟩ := a
  cases version <;> cases kind <;> decide

/-- A name that version 1.0 has is that of the same kind in every version that has it. -/
theorem kind_of_name {kind' : Kind} (h : (Attribute.mk version kind).name = kind'.name) :
    kind = kind' := by
  cases version <;> cases kind <;> cases kind' <;> first | rfl | exact absurd h (by decide)

theorem mem_all (kind : Kind) : kind ∈ Kind.all := by
  cases kind <;> decide

theorem attribute_eq_some : sdk.attribute name = some kind ↔ kind.name = sdk.toLower name := by
  constructor
  · intro h
    simpa using List.find?_some h
  · intro h
    obtain ⟨found, hfound⟩ : ∃ found, sdk.attribute name = some found := by
      rw [← Option.isSome_iff_exists, SDK.attribute, List.find?_isSome]
      exact ⟨kind, mem_all kind, decide_eq_true h⟩
    have hname : found.name = sdk.toLower name := by simpa using List.find?_some hfound
    rw [hfound, kind_of_name (hname.trans h.symm)]

/-- What a header is read as. -/
def SDK.target (sdk : SDK) (name : Name) : Target :=
  match sdk.attribute name with
  | some kind => .attr kind
  | none => .extension (sdk.toLower name)

theorem target_eq_attr : sdk.target name = .attr kind ↔ kind.name = sdk.toLower name := by
  rw [← attribute_eq_some, SDK.target]
  cases sdk.attribute name <;> simp

theorem target_eq_extension {lower : Name} : sdk.target name = .extension lower ↔
    sdk.attribute name = none ∧ sdk.toLower name = lower := by
  rw [SDK.target]
  cases sdk.attribute name <;> simp

variable (hsdk : sdk.Lawful)

include hsdk

theorem name_target (hplain : isPlainName name = true) : (sdk.target name).name .v1 = name := by
  have hlower := hsdk.toLower_plain name hplain
  cases h : sdk.target name with
  | attr kind => exact (target_eq_attr.mp h).trans hlower
  | extension lower => exact (target_eq_extension.mp h).2.symm.trans hlower

theorem target_name (kind : Kind) : sdk.target kind.name = .attr kind :=
  target_eq_attr.mpr (hsdk.toLower_plain _ (isPlainName_name ⟨.v1, kind⟩)).symm

end Names

theorem cutPrefix_append (name : Name) : cutPrefix (headerPrefix ++ name) = some name := by
  have hcut : headerPrefix.isPrefixOf (headerPrefix ++ name) = true :=
    List.isPrefixOf_iff_prefix.mpr (List.prefix_append _ _)
  rw [cutPrefix, if_pos hcut, List.drop_left]

section Writing

variable {items : List (Target × Value)} (h : ∀ p ∈ items, p.1.admits version p.2 = true)

include h

theorem written_recorder {c : Content} :
    written recorder (items.map fun p => p.1.write version p.2) c =
      .ok { c with sets := Table.fill c.sets (items.map fun p => (p.1, canon p.2)) } := by
  induction items generalizing c with
  | nil => rfl
  | cons p items ih =>
    obtain ⟨hp, hrest⟩ := List.forall_mem_cons.mp h
    obtain ⟨t, v⟩ := p
    cases t <;> simp only [List.map_cons, Target.write, written, Write.apply, recorder, Content.set,
      validate_canon (valued hp), bind, Except.bind] <;> exact ih hrest

/-- The content type of a publishing once the items were written to it. -/
def contentTypeOf (sdk : SDK) : List (Target × Value) → String → Except Error String
  | [], contentType => .ok contentType
  | (t, value) :: rest, contentType =>
    if t = .attr .dataContentType then do
      let s ← sdk.format value
      contentTypeOf sdk rest s
    else contentTypeOf sdk rest contentType

omit h in
theorem contentTypeOf_eq (h : ∀ p ∈ items, p.1 ≠ .attr .dataContentType) (contentType : String) :
    contentTypeOf sdk items contentType = .ok contentType := by
  induction items with
  | nil => rfl
  | cons p items ih =>
    obtain ⟨hp, hrest⟩ := List.forall_mem_cons.mp h
    rw [contentTypeOf, if_neg hp, ih hrest]

/-- What goes into headers. -/
def entries (version : Version) (items : List (Target × Value)) : List (Name × Value) :=
  (items.filter (·.1 ≠ .attr .dataContentType)).map fun p =>
    (headerPrefix ++ p.1.name version, wire (canon p.2))

theorem written_writer {contentType : String} {headers : Headers} {body : Bytes} :
    written (amqpMessageWriter sdk) (items.map fun p => p.1.write version p.2)
        ⟨contentType, some headers, body⟩ =
      (contentTypeOf sdk items contentType).map fun contentType =>
        ⟨contentType, some (Table.fill headers (entries version items)), body⟩ := by
  induction items generalizing contentType headers with
  | nil => rfl
  | cons p items ih =>
    obtain ⟨hp, hrest⟩ := List.forall_mem_cons.mp h
    by_cases hkind : p.1 = .attr .dataContentType
    · obtain ⟨t, v⟩ := p
      cases hkind
      simp only [List.map_cons, Target.write, written, Write.apply, amqpMessageWriter, if_true,
        contentTypeOf, bind, Except.bind]
      cases sdk.format v with
      | error err => rfl
      | ok s => exact ih hrest
    · have hentries : entries version (p :: items) =
          (headerPrefix ++ p.1.name version, wire (canon p.2)) :: entries version items := by
        rw [entries, List.filter_cons_of_pos (by simpa using hkind)]
        rfl
      obtain ⟨t, v⟩ := p
      rw [contentTypeOf, if_neg hkind, hentries]
      cases t with
      | attr kind =>
        have hkind : kind ≠ .dataContentType := fun heq => hkind (congrArg _ heq)
        simp only [List.map_cons, Target.write, written, Write.apply, amqpMessageWriter,
          if_neg hkind, unwrap_canon (valued hp), bind, Except.bind]
        exact ih hrest
      | extension name =>
        simp only [List.map_cons, Target.write, written, Write.apply, amqpMessageWriter,
          unwrap_canon (valued hp), bind, Except.bind, Option.getD_some]
        exact ih hrest

end Writing

/-- What an event sets, as CloudEvents values. -/
def Event.sets (e : Event) : Target → Option Value :=
  Table.fill (fun _ => none) (e.items.map fun p => (p.1, canon p.2))

def Event.headers (e : Event) : Headers := Table.fill noHeaders (entries e.version e.items)

/-- The event read directly. -/
theorem readBinary_recorder (e : Event) :
    e.readBinary recorder .empty = .ok ⟨e.sets, e.data⟩ := by
  simp only [Event.readBinary, written_recorder e.admits, bind, Except.bind]
  split
  · rename_i hempty
    rw [List.isEmpty_iff.mp hempty]
    rfl
  · rfl

theorem writeMessage_eq (sdk : SDK) (e : Event) : writeMessage sdk e =
    (contentTypeOf sdk e.items "").map fun contentType =>
      ⟨contentType, some e.headers, e.data⟩ := by
  simp only [writeMessage, start, Option.getD_none, Event.readBinary, written_writer e.admits, bind,
    Except.bind]
  cases contentTypeOf sdk e.items "" with
  | error err => rfl
  | ok contentType =>
    simp only [Except.map]
    split
    · rename_i hempty
      rw [List.isEmpty_iff.mp hempty]
      rfl
    · rfl

theorem keys_of_headers (e : Event) :
    e.headers.Keys ((entries e.version e.items).map Prod.fst).dedup := by
  refine ⟨List.nodup_dedup _, fun key => ?_⟩
  rw [List.mem_dedup, Event.headers, Table.isSome_fill]
  simp [noHeaders]

theorem mem_of_headers {key : Name} (h : e.headers key = some v) :
    ∃ p ∈ e.items, p.1 ≠ .attr .dataContentType ∧ headerPrefix ++ p.1.name e.version = key ∧
      wire (canon p.2) = v := by
  obtain ⟨p, hp, heq⟩ := List.mem_map.mp ((Table.mem_of_fill h).resolve_right (by simp [noHeaders]))
  obtain ⟨hmem, hkind⟩ := List.mem_filter.mp hp
  obtain ⟨rfl, rfl⟩ := Prod.mk.inj heq
  exact ⟨p, hmem, by simpa using hkind, rfl, rfl⟩

theorem isPlainName_of_admits (h : t.admits version v = true) :
    isPlainName (t.name version) = true := by
  cases t with
  | attr kind => exact isPlainName_name _
  | extension name =>
    simp only [Target.admits, Bool.and_eq_true] at h
    exact h.1.2

theorem mem_of_sets (h : e.sets t = some v) : ∃ p ∈ e.items, p.1 = t ∧ canon p.2 = v := by
  obtain ⟨p, hp, heq⟩ := List.mem_map.mp ((Table.mem_of_fill h).resolve_right (by simp))
  obtain ⟨rfl, rfl⟩ := Prod.mk.inj heq
  exact ⟨p, hp, rfl, rfl⟩

theorem sets_of_mem {p : Target × Value} (hp : p ∈ e.items) : e.sets p.1 = some (canon p.2) := by
  have hsome : (e.sets p.1).isSome = true :=
    (Table.isSome_fill ..).mpr (.inl (by simpa using ⟨p.2, hp⟩))
  obtain ⟨v, hv⟩ := Option.isSome_iff_exists.mp hsome
  obtain ⟨q, hq, hkey, rfl⟩ := mem_of_sets hv
  rw [hv, List.inj_on_of_nodup_map e.nodup hq hp hkey]

theorem isSome_headers {p : Target × Value} (hp : p ∈ e.items)
    (hkind : p.1 ≠ .attr .dataContentType) :
    (e.headers (headerPrefix ++ p.1.name e.version)).isSome = true := by
  have hmem : (headerPrefix ++ p.1.name e.version, wire (canon p.2)) ∈ entries e.version e.items :=
    List.mem_map.mpr ⟨p, List.mem_filter.mpr ⟨hp, by simpa using hkind⟩, rfl⟩
  exact (Table.isSome_fill ..).mpr (.inl (List.mem_map_of_mem hmem))

/-- What is read for a target. -/
def SDK.received (sdk : SDK) (headers : Headers) (t : Target) : Option Value :=
  if sdk.target (t.name .v1) = t then (headers (headerPrefix ++ t.name .v1)).map canon else none

/-- The headers read into the recorder, each for what it stands for. -/
theorem readHeaders_recorder (hsdk : sdk.Lawful) {d : Delivery} {keys : List Name} {c : Content}
    (h : ∀ key ∈ keys, ∃ name v, key = headerPrefix ++ name ∧ isPlainName name = true ∧
      d.headers key = some v ∧ validate v = .ok (canon v)) :
    readHeaders sdk recorder d keys c = .ok ⟨fun t =>
      if sdk.target (t.name .v1) = t ∧ headerPrefix ++ t.name .v1 ∈ keys
      then (d.headers (headerPrefix ++ t.name .v1)).map canon else c.sets t, c.data⟩ := by
  induction keys generalizing c with
  | nil => simp [readHeaders]
  | cons key keys ih =>
    obtain ⟨⟨name, v, rfl, hplain, hheader, hvalid⟩, hrest⟩ := List.forall_mem_cons.mp h
    have hnext : readHeaders sdk recorder d ((headerPrefix ++ name) :: keys) c =
        readHeaders sdk recorder d keys
          { c with sets := Function.update c.sets (sdk.target name) (some (canon v)) } := by
      simp only [readHeaders, cutPrefix_append, SDK.target]
      cases hfound : sdk.attribute name <;>
        simp only [hheader, hfound, recorder, Content.set, hvalid, bind, Except.bind]
    rw [hnext, ih hrest]
    refine congrArg (fun sets => Except.ok (Content.mk sets c.data)) (funext fun t => ?_)
    by_cases ht : t = sdk.target name
    · subst ht
      simp [name_target hsdk hplain, hheader]
    · by_cases hback : sdk.target (t.name .v1) = t
      · have hname : t.name .v1 ≠ name := by
          rintro rfl
          exact ht hback.symm
        simp [hback, hname, ht]
      · simp [hback, ht]

/-- What is read of an event from its headers. -/
theorem readBinary_headers (hsdk : sdk.Lawful) (e : Event) {contentType : String}
    (hbinary : sdk.lookup contentType = false) {keys : List Name} (hkeys : e.headers.Keys keys) :
    (⟨contentType, e.headers, e.data⟩ : Delivery).readBinary sdk recorder keys .empty =
      .ok ⟨sdk.received e.headers, e.data⟩ := by
  have hall : ∀ key ∈ keys, ∃ name v, key = headerPrefix ++ name ∧ isPlainName name = true ∧
      e.headers key = some v ∧ validate v = .ok (canon v) := by
    intro key hkey
    obtain ⟨v, hv⟩ := Option.isSome_iff_exists.mp ((hkeys.2 key).mp hkey)
    obtain ⟨p, hp, -, rfl, rfl⟩ := mem_of_headers hv
    have hadmits := e.admits p hp
    exact ⟨_, _, rfl, isPlainName_of_admits hadmits, hv,
      validate_wire (isCanonical_canon (valued hadmits))⟩
  simp only [Delivery.readBinary, hbinary, Bool.false_eq_true, if_false,
    readHeaders_recorder (d := ⟨contentType, e.headers, e.data⟩) hsdk hall, bind, Except.bind]
  refine congrArg (fun sets => Except.ok (Content.mk sets e.data)) (funext fun t => ?_)
  have hmem := hkeys.2 (headerPrefix ++ t.name .v1)
  cases hheader : e.headers (headerPrefix ++ t.name .v1) <;>
    simp [hmem, hheader, Content.empty, SDK.received]

/-- What headers carry: no data content type, which travels elsewhere and is not read, no URIs among
the extensions, which become texts, and nothing whose name has changed since version 0.3. -/
def Event.Carried (e : Event) : Prop :=
  ∀ p ∈ e.items, p.1 ≠ .attr .dataContentType ∧ p.2.isPlain = true ∧
    (e.version = .v03 → p.1 ≠ .attr .dataSchema ∧ p.1 ≠ .extension "dataschema".toList)

/-- A target is read as what it was if its name has not changed. -/
theorem target_of_admits (hsdk : sdk.Lawful) (hadmits : t.admits version v = true)
    (hversion : version = .v03 → t ≠ .attr .dataSchema ∧ t ≠ .extension "dataschema".toList) :
    t.name version = t.name .v1 ∧ sdk.target (t.name .v1) = t := by
  cases t with
  | attr kind =>
    refine ⟨?_, target_name hsdk kind⟩
    cases version with
    | v1 => rfl
    | v03 => cases kind <;> first | rfl | exact absurd rfl (hversion rfl).1
  | extension name =>
    simp only [Target.admits, Bool.and_eq_true, List.all_eq_true, bne_iff_ne] at hadmits
    have hlower := hsdk.toLower_plain name hadmits.1.2
    refine ⟨rfl, target_eq_extension.mpr ⟨Option.eq_none_iff_forall_ne_some.mpr ?_, hlower⟩⟩
    intro kind hfound
    have hkind : kind.name = name := (attribute_eq_some.mp hfound).trans hlower
    refine hadmits.2 kind (mem_all kind) ?_
    cases version with
    | v1 => exact hkind
    | v03 =>
      cases kind <;>
        first | exact hkind | exact absurd (congrArg Target.extension hkind.symm) (hversion rfl).2

theorem received_of_carried (hsdk : sdk.Lawful) (h : e.Carried) :
    sdk.received e.headers = e.sets := by
  have hsame : ∀ p ∈ e.items,
      p.1.name e.version = p.1.name .v1 ∧ sdk.target (p.1.name .v1) = p.1 :=
    fun p hp => target_of_admits hsdk (e.admits p hp) (h p hp).2.2
  -- A header is that of the one target that is read from it.
  have hheaders : ∀ t v, sdk.target (t.name .v1) = t →
      e.headers (headerPrefix ++ t.name .v1) = some v → e.sets t = some (canon v) := by
    intro t v ht hv
    obtain ⟨p, hp, -, hkey, rfl⟩ := mem_of_headers hv
    obtain ⟨hversion, hback⟩ := hsame p hp
    have hpt : p.1 = t := by rw [← hback, ← hversion, List.append_cancel_left hkey, ht]
    rw [← hpt, sets_of_mem hp, canon_wire (isCanonical_canon (valued (e.admits p hp)))]
    exact (isPlain_canon _).trans (h p hp).2.1
  funext t
  rw [SDK.received]
  cases hsets : e.sets t with
  | some v =>
    obtain ⟨p, hp, rfl, rfl⟩ := mem_of_sets hsets
    obtain ⟨hversion, hback⟩ := hsame p hp
    obtain ⟨v, hv⟩ := Option.isSome_iff_exists.mp (isSome_headers hp (h p hp).1)
    rw [hversion] at hv
    rw [if_pos hback, hv, Option.map_some, ← hheaders p.1 v hback hv, hsets]
  | none =>
    split
    · rename_i ht
      cases hv : e.headers (headerPrefix ++ t.name .v1) with
      | none => rfl
      | some v => cases hsets.symm.trans (hheaders t v ht hv)
    · rfl

theorem carried_of_received (hsdk : sdk.Lawful) (h : sdk.received e.headers = e.sets) :
    e.Carried := by
  -- Everything that is set comes from an item whose header has its name in version 1.0.
  have hitem : ∀ p ∈ e.items, sdk.target (p.1.name .v1) = p.1 ∧ ∃ q ∈ e.items,
      q.1 ≠ .attr .dataContentType ∧ q.1.name e.version = p.1.name .v1 ∧
      canon (wire (canon q.2)) = canon p.2 := by
    intro p hp
    have hsets := (congrFun h p.1).trans (sets_of_mem hp)
    rw [SDK.received] at hsets
    split at hsets
    · rename_i hback
      obtain ⟨v, hv, hvalue⟩ := Option.map_eq_some_iff.mp hsets
      obtain ⟨q, hq, hkind, hkey, rfl⟩ := mem_of_headers hv
      exact ⟨hback, q, hq, hkind, List.append_cancel_left hkey, hvalue⟩
    · cases hsets
  have hattr : ∀ kind v, (Target.attr kind, v) ∈ e.items → kind ≠ .dataContentType ∧
      (Attribute.mk e.version kind).name = kind.name := by
    intro kind v hmem
    obtain ⟨-, ⟨u, w⟩, hq, hkind, hname, -⟩ := hitem _ hmem
    cases u with
    | attr kind' =>
      obtain rfl := kind_of_name hname
      exact ⟨fun heq => hkind (congrArg _ heq), hname⟩
    | extension name =>
      have hback := (hitem _ hq).1
      have hname : name = kind.name := hname
      subst hname
      rw [Target.name, target_name hsdk] at hback
      cases hback
  intro p hp
  obtain ⟨hback, q, -, -, -, hvalue⟩ := hitem p hp
  refine ⟨?_, ?_, fun hversion => ⟨?_, ?_⟩⟩
  · intro heq
    exact (hattr .dataContentType p.2 (heq ▸ hp)).1 rfl
  · rw [← isPlain_canon, ← hvalue, isPlain_canon]
    exact isPlain_wire _
  · intro heq
    have hname := (hattr .dataSchema p.2 (heq ▸ hp)).2
    rw [hversion] at hname
    exact absurd hname (by decide)
  · intro heq
    rw [heq] at hback
    exact absurd ((target_name hsdk .dataSchema).symm.trans hback) (by decide)

/-- The event, written to a publishing and read from its delivery with the headers in any order,
sets the same as the event itself. -/
def RoundTrips (sdk : SDK) (e : Event) : Prop :=
  ∃ p content, writeMessage sdk e = .ok p ∧ e.readBinary recorder .empty = .ok content ∧
    ∀ keys, p.deliver.headers.Keys keys →
      p.deliver.readBinary sdk recorder keys .empty = .ok content

/-- Exactly the events whose headers carry everything make the round trip. -/
theorem amqp_round_trip (sdk : SDK) (hsdk : sdk.Lawful) (e : Event) :
    RoundTrips sdk e ↔ e.Carried := by
  constructor
  · rintro ⟨p, content, hp, hcontent, hread⟩
    rw [writeMessage_eq] at hp
    cases hwritten : contentTypeOf sdk e.items "" with
    | error err =>
      rw [hwritten] at hp
      cases hp
    | ok contentType =>
      rw [hwritten] at hp
      cases hp
      have hkeys := keys_of_headers e
      have hback := hread _ hkeys
      have hbinary : sdk.lookup contentType = false := by
        by_contra hfound
        rw [Bool.not_eq_false] at hfound
        simp only [Delivery.readBinary, Publishing.deliver, hfound, if_true] at hback
        cases hback
      have hsame := (readBinary_headers hsdk e hbinary hkeys).symm.trans
        (hback.trans (hcontent.symm.trans (readBinary_recorder e)))
      simp only [Except.ok.injEq, Content.mk.injEq, and_true] at hsame
      exact carried_of_received hsdk hsame
  · intro h
    refine ⟨⟨"", some e.headers, e.data⟩, _, ?_, readBinary_recorder e, fun keys hkeys => ?_⟩
    · rw [writeMessage_eq, contentTypeOf_eq fun p hp => (h p hp).1]
      rfl
    · rw [← received_of_carried hsdk h]
      exact readBinary_headers hsdk e hsdk.lookup_empty hkeys

/-- The SDK as far as it matters: texts are formatted as they are, and the media types of structured
events are found. Names are of ASCII characters. -/
def plainSDK : SDK where
  format
    | .string s => .ok s
    | _ => .error .invalidValue
  lookup contentType := "application/cloudevents".toList.isPrefixOf contentType.toList
  toLower name := name.map Char.toLower

/-- Capital letters by their codes. -/
def isCapital (c : Char) : Prop := 65 ≤ c.val.toNat ∧ c.val.toNat ≤ 90

theorem toLower_eq {c : Char} (h : ¬ isCapital c) : c.toLower = c := by
  unfold Char.toLower
  split
  · rename_i hupper
    exact absurd hupper h
  · rfl

theorem not_capital_toLower (c : Char) : ¬ isCapital c.toLower := by
  unfold Char.toLower
  split <;> rename_i h
  · simp only [ge_iff_le, UInt32.le_iff_toNat_le, Char.reduceVal, UInt32.reduceToNat] at h
    simp only [isCapital, UInt32.toNat_add, Char.reduceVal, UInt32.reduceSub, UInt32.reduceToNat]
    omega
  · exact h

theorem not_capital_plain {c : Char} (h : (c.isLower || c.isDigit) = true) : ¬ isCapital c := by
  have hplain : (decide (c.val ≥ 'a'.val) && decide (c.val ≤ 'z'.val) ||
      decide (c.val ≥ '0'.val) && decide (c.val ≤ '9'.val)) = true := h
  simp only [Bool.or_eq_true, Bool.and_eq_true, decide_eq_true_eq, ge_iff_le,
    UInt32.le_iff_toNat_le, Char.reduceVal, UInt32.reduceToNat] at hplain
  unfold isCapital
  omega

theorem plainSDK_lawful : plainSDK.Lawful where
  lookup_empty := by decide
  toLower_plain name h := by
    have hsame : name.map Char.toLower = name.map id := by
      refine List.map_congr_left fun c hc => toLower_eq (not_capital_plain ?_)
      exact List.all_eq_true.mp (Bool.and_eq_true_iff.mp h).2 c hc
    exact hsame.trans (List.map_id name)
  toLower_toLower name := by
    simp only [plainSDK, List.map_map]
    exact List.map_congr_left fun c _ => toLower_eq (not_capital_toLower c)

/-- An event with the required attributes, an extension and one attribute more. -/
def ordered (kind : Kind) (text : String)
    (hkind : kind ∉ [Kind.id, .source, .specVersion, .type]) : Event where
  version := .v1
  items := [(.attr .id, .string "1"), (.attr .source, .string "/orders"),
    (.attr .specVersion, .string "1.0"), (.attr .type, .string "order"),
    (.extension "shard".toList, .int32 7), (.attr kind, .string text)]
  data := [1]
  nodup := by
    simp only [List.mem_cons, List.not_mem_nil, or_false, not_or] at hkind
    simp [Ne.symm hkind.1, Ne.symm hkind.2.1, Ne.symm hkind.2.2.1, Ne.symm hkind.2.2.2]
  required := by simp
  admits := by
    intro p hp
    simp only [List.mem_cons, List.not_mem_nil, or_false] at hp
    rcases hp with rfl | rfl | rfl | rfl | rfl | rfl
    all_goals rfl

/-- An event with a data content type comes back without it. -/
theorem content_type_lost :
    let e := ordered .dataContentType "application/json" (by decide)
    ∃ p content read keys, writeMessage plainSDK e = .ok p ∧
      e.readBinary recorder .empty = .ok content ∧ p.deliver.headers.Keys keys ∧
      p.deliver.readBinary plainSDK recorder keys .empty = .ok read ∧
      content.sets (.attr .dataContentType) = some (.string "application/json") ∧
      read.sets (.attr .dataContentType) = none := by
  intro e
  have hkeys := keys_of_headers e
  exact ⟨⟨"application/json", _, _⟩, _, _, _, writeMessage_eq plainSDK e, readBinary_recorder e,
    hkeys, readBinary_headers plainSDK_lawful e (by decide) hkeys, rfl, by decide⟩

theorem amqp_round_trip_subject :
    RoundTrips plainSDK (ordered .subject "7" (by decide)) :=
  (amqp_round_trip plainSDK plainSDK_lawful _).mpr
    (by simp [Event.Carried, ordered, Value.isPlain])

end Fries.CloudEvents
