import Fries.CloudEvents.RoundTrip

/-! Metadata of a message: extensions are found as they are read if their names were written in
lower case, attributes are not. -/
namespace Fries.CloudEvents

variable {sdk : SDK} {p p' : Publishing} {d : Delivery} {t : Target} {name : Name}

/-- `AttributeFromKind` of version 1.0, which has every kind. -/
def attributeFromKind (kind : Kind) : Option Kind := some kind

/-- `PrefixedName` of an attribute of a version without a prefix. -/
def Kind.prefixedName (kind : Kind) : Name := kind.name

/-- `Message.GetAttribute`. A missing value is nil. -/
def Delivery.getAttribute (d : Delivery) (kind : Kind) : Option Kind × Option Value :=
  match attributeFromKind kind with
  | some attr => (some attr, d.headers attr.prefixedName)
  | none => (none, none)

/-- `Message.GetExtension`. -/
def Delivery.getExtension (d : Delivery) (sdk : SDK) (name : Name) : Option Value :=
  d.headers (headerPrefix ++ sdk.toLower name)

/-- The values under each name after a call. The content type is kept elsewhere. -/
def Write.sets (values : Name → Option Value) : Write → Name → Option Value
  | .attr a value =>
    if a.kind = .dataContentType then values else Function.update values a.name value
  | .extension name (some v) => Function.update values name (some v)
  | _ => values

/-- The values that a fresh publishing was given, under the names as they were spelled. -/
def stored (writes : List Write) : Name → Option Value :=
  writes.foldl Write.sets fun _ => none

/-- What an encoder is passed, in order. -/
structure Journal where
  values : List (Target × Option Value)
  data : List Bytes

def journal : BinaryWriter Journal where
  setAttribute a value j := .ok { j with values := j.values ++ [(.attr a.kind, value)] }
  setExtension name value j := .ok { j with values := j.values ++ [(.extension name, value)] }
  setData data j := .ok { j with data := j.data ++ [data] }

/-- The values that were passed for an attribute or an extension. -/
def Journal.of (j : Journal) (t : Target) : List (Option Value) :=
  (j.values.filter (·.1 = t)).map Prod.snd

section Writing

/-- The headers are those of the names that have a value. -/
structure Filled (values : Name → Option Value) (headers : Headers) : Prop where
  keys : ∀ key, (headers key).isSome = true → ∃ name, key = headerPrefix ++ name
  isSome : ∀ name, (headers (headerPrefix ++ name)).isSome = (values name).isSome

variable {values : Name → Option Value} {headers : Headers}

theorem filled_update (h : Filled values headers) (name : Name) {v value : Option Value}
    (hv : v.isSome = value.isSome) :
    Filled (Function.update values name value)
      (Function.update headers (headerPrefix ++ name) v) := by
  constructor
  · intro key hkey
    by_cases hk : key = headerPrefix ++ name
    · exact ⟨name, hk⟩
    · rw [Function.update_of_ne hk] at hkey
      exact h.keys key hkey
  · intro other
    by_cases hk : other = name
    · subst hk
      rw [Function.update_self, Function.update_self, hv]
    · rw [Function.update_of_ne hk, Function.update_of_ne (mt List.append_cancel_left hk),
        h.isSome other]

variable (hp : p.headers = some headers) (h : Filled values headers)

include hp h

theorem filled_apply {w : Write} (hw : w.apply (amqpMessageWriter sdk) p = .ok p') :
    ∃ headers', p'.headers = some headers' ∧ Filled (w.sets values) headers' := by
  cases w with
  | attr a value =>
    simp only [Write.apply, amqpMessageWriter] at hw
    by_cases hkind : a.kind = .dataContentType
    · rw [Write.sets, if_pos hkind]
      rw [if_pos hkind] at hw
      cases value with
      | none =>
        cases hw
        exact ⟨headers, hp, h⟩
      | some v =>
        obtain ⟨s, -, ⟨⟩⟩ := bind_ok.mp hw
        exact ⟨headers, hp, h⟩
    · rw [Write.sets, if_neg hkind]
      rw [if_neg hkind] at hw
      cases value with
      | none =>
        simp only [hp, Option.map_some] at hw
        cases hw
        exact ⟨_, rfl, filled_update h a.name rfl⟩
      | some v =>
        obtain ⟨v', -, hw⟩ := bind_ok.mp hw
        simp only [hp] at hw
        cases hw
        exact ⟨_, rfl, filled_update h a.name rfl⟩
  | extension name value =>
    cases value with
    | none =>
      cases hw
      exact ⟨headers, hp, h⟩
    | some v =>
      simp only [Write.apply, amqpMessageWriter, hp, Option.getD_some] at hw
      obtain ⟨v', -, ⟨⟩⟩ := bind_ok.mp hw
      exact ⟨_, rfl, filled_update h name rfl⟩
  | data bytes =>
    cases hw
    exact ⟨headers, hp, h⟩

/-- What is known of the headers after any number of calls. -/
theorem filled_written {writes : List Write}
    (hw : written (amqpMessageWriter sdk) writes p = .ok p') :
    ∃ headers', p'.headers = some headers' ∧ Filled (writes.foldl Write.sets values) headers' := by
  induction writes generalizing p values headers with
  | nil =>
    cases hw
    exact ⟨headers, hp, h⟩
  | cons w writes ih =>
    obtain ⟨q, hq, hw⟩ := bind_ok.mp hw
    obtain ⟨headers', hp', hfilled⟩ := filled_apply hp h hq
    exact ih hp' hfilled hw

end Writing

section Reading

/-- What a header is passed on as. -/
def SDK.targetOf (sdk : SDK) (key : Name) : Option Target := (cutPrefix key).map sdk.target

/-- The headers of a target are passed on for it, in order. -/
theorem readHeaders_journal (sdk : SDK) {keys : List Name}
    (hkeys : ∀ key ∈ keys, (d.headers key).isSome = true) (j : Journal) :
    ∃ j', readHeaders sdk journal d keys j = .ok j' ∧
      ∀ t, j'.of t = j.of t ++ (keys.filter (sdk.targetOf · = some t)).map d.headers := by
  induction keys generalizing j with
  | nil => exact ⟨j, rfl, by simp⟩
  | cons key keys ih =>
    obtain ⟨hsome, hrest⟩ := List.forall_mem_cons.mp hkeys
    obtain ⟨v, hv⟩ := Option.isSome_iff_exists.mp hsome
    cases hcut : cutPrefix key with
    | none =>
      obtain ⟨j', hread, hof⟩ := ih hrest j
      refine ⟨j', ?_, fun t => ?_⟩
      · simp only [readHeaders, hcut]
        exact hread
      · rw [hof, List.filter_cons_of_neg (by simp [SDK.targetOf, hcut])]
    | some name =>
      obtain ⟨j', hread, hof⟩ :=
        ih hrest { j with values := j.values ++ [(sdk.target name, some v)] }
      refine ⟨j', ?_, fun t => ?_⟩
      · rw [← hread]
        simp only [readHeaders, hcut, hv, SDK.target]
        cases sdk.attribute name <;> rfl
      · rw [hof, List.filter_cons]
        by_cases ht : sdk.target name = t <;> simp [Journal.of, SDK.targetOf, hcut, ht, hv]

/-- The values are that of one key, if it has one, exactly if there is no other key. -/
theorem map_eq_toList {keys : List Name} (hnodup : keys.Nodup) {headers : Headers} {key : Name}
    (hkey : key ∈ keys ↔ (headers key).isSome = true) :
    keys.map headers = (headers key).toList.map some ↔ ∀ other ∈ keys, other = key := by
  have hone : (headers key).toList.map some = (keys.filter (· = key)).map headers := by
    rw [List.filter_eq, hnodup.count, List.map_replicate]
    cases hvalue : headers key <;> simp [hkey, hvalue]
  rw [hone]
  constructor
  · intro h
    have hlength := congrArg List.length h
    rw [List.length_map, List.length_map] at hlength
    simpa using List.length_filter_eq_length_iff.mp hlength.symm
  · intro h
    rw [List.filter_eq_self.mpr fun other hother => decide_eq_true (h other hother)]

theorem targetOf_eq_some {key : Name} : sdk.targetOf key = some t ↔
    ∃ name, key = headerPrefix ++ name ∧ sdk.target name = t := by
  constructor
  · intro h
    obtain ⟨name, hcut, rfl⟩ := Option.map_eq_some_iff.mp h
    rw [cutPrefix] at hcut
    split at hcut
    · rename_i hprefix
      cases hcut
      obtain ⟨rest, rfl⟩ := List.isPrefixOf_iff_prefix.mp hprefix
      exact ⟨rest, rfl, by rw [List.drop_left]⟩
    · cases hcut
  · rintro ⟨name, rfl, rfl⟩
    rw [SDK.targetOf, cutPrefix_append]
    rfl

/-- What is passed on for a target is the value under one key of it exactly if no other is used. -/
theorem passed_eq_iff {keys : List Name} (hkeys : d.headers.Keys keys) {key : Name}
    (hkey : sdk.targetOf key = some t ∨ d.headers key = none) :
    (keys.filter (sdk.targetOf · = some t)).map d.headers = (d.headers key).toList.map some ↔
      ∀ name, sdk.target name = t → headerPrefix ++ name ≠ key →
        d.headers (headerPrefix ++ name) = none := by
  have hmem : key ∈ keys.filter (sdk.targetOf · = some t) ↔ (d.headers key).isSome = true := by
    rw [List.mem_filter, hkeys.2, decide_eq_true_eq]
    rcases hkey with hkey | hkey <;> simp [hkey]
  rw [map_eq_toList (hkeys.1.filter _) hmem]
  constructor
  · intro h name hname hne
    by_contra hsome
    refine hne (h _ (List.mem_filter.mpr ⟨?_, ?_⟩))
    · exact (hkeys.2 _).mpr (Option.isSome_iff_ne_none.mpr hsome)
    · exact decide_eq_true (targetOf_eq_some.mpr ⟨name, rfl, hname⟩)
  · intro h other hother
    rw [List.mem_filter, hkeys.2, decide_eq_true_eq, targetOf_eq_some] at hother
    obtain ⟨hsome, name, rfl, hname⟩ := hother
    by_contra hne
    rw [h name hname hne] at hsome
    cases hsome

theorem attribute_congr {other : Name} (h : sdk.toLower other = sdk.toLower name) :
    sdk.attribute other = sdk.attribute name := by
  rw [SDK.attribute, SDK.attribute, h]

/-- No header has the plain name of an attribute. -/
theorem kind_name_ne (kind : Kind) (name : Name) : headerPrefix ++ name ≠ kind.name := by
  have hprefix : ¬ headerPrefix <+: kind.name := by
    cases kind <;> decide
  intro h
  exact hprefix (h ▸ List.prefix_append _ _)

end Reading

/-- Of every message the writer produces, `ReadBinary` passes on for an extension what
`GetExtension` returns exactly if its name was not spelled otherwise than in lower case, nor is that
of an attribute, and for an attribute what `GetAttribute` returns exactly if that is nothing. -/
theorem metadata_agrees_with_readBinary (hsdk : sdk.Lawful) {writes : List Write}
    (hw : written (amqpMessageWriter sdk) writes (start ⟨"", none, []⟩) = .ok p)
    (hbinary : sdk.lookup p.contentType = false) {keys : List Name}
    (hkeys : p.deliver.headers.Keys keys) :
    ∃ j, p.deliver.readBinary sdk journal keys ⟨[], []⟩ = .ok j ∧
      (∀ name, sdk.attribute name = none →
        (j.of (.extension (sdk.toLower name)) =
            (p.deliver.getExtension sdk name).toList.map some ↔
          ∀ other, sdk.toLower other = sdk.toLower name → other ≠ sdk.toLower name →
            stored writes other = none)) ∧
      (∀ name kind, sdk.attribute name = some kind →
        (j.of (.extension (sdk.toLower name)) =
            (p.deliver.getExtension sdk name).toList.map some ↔
          stored writes (sdk.toLower name) = none)) ∧
      ∀ kind, j.of (.attr kind) = (p.deliver.getAttribute kind).2.toList.map some ↔
        ∀ name, sdk.toLower name = kind.name → stored writes name = none := by
  have hstart : Filled (fun _ => none) noHeaders := ⟨by simp [noHeaders], fun _ => rfl⟩
  obtain ⟨headers, hp, hfilled⟩ := filled_written rfl hstart hw
  have hheaders : p.deliver.headers = headers := by
    rw [Publishing.deliver, hp]
    rfl
  subst hheaders
  have hnone : ∀ name, p.deliver.headers (headerPrefix ++ name) = none ↔
      stored writes name = none := by
    intro name
    rw [← Option.isNone_iff_eq_none, ← Option.isNone_iff_eq_none, ← Option.not_isSome,
      ← Option.not_isSome, hfilled.isSome, stored]
  obtain ⟨j, hread, hof⟩ :=
    readHeaders_journal sdk (fun key => (hkeys.2 key).mp) ⟨[], []⟩
  have hformat : ¬ sdk.lookup p.deliver.contentType = true := Bool.eq_false_iff.mp hbinary
  have hpassed : ∀ t, (Journal.mk j.values (j.data ++ [p.deliver.body])).of t =
      (keys.filter (sdk.targetOf · = some t)).map p.deliver.headers := hof
  refine ⟨⟨j.values, j.data ++ [p.deliver.body]⟩, ?_, fun name hname => ?_,
    fun name kind hname => ?_, fun kind => ?_⟩
  · rw [Delivery.readBinary, if_neg hformat, hread]
    rfl
  · have hlower := hsdk.toLower_toLower name
    have htarget : sdk.target (sdk.toLower name) = .extension (sdk.toLower name) :=
      target_eq_extension.mpr ⟨(attribute_congr hlower).trans hname, hlower⟩
    rw [hpassed, Delivery.getExtension,
      passed_eq_iff hkeys (.inl (targetOf_eq_some.mpr ⟨_, rfl, htarget⟩))]
    refine forall_congr' fun other => ?_
    rw [hnone, target_eq_extension, ne_eq, List.append_cancel_left_eq]
    exact ⟨fun h hother => h ⟨(attribute_congr hother).trans hname, hother⟩,
      fun h hother => h hother.2⟩
  · have hnil : keys.filter (sdk.targetOf · = some (.extension (sdk.toLower name))) = [] := by
      refine List.filter_eq_nil_iff.mpr fun key _ => ?_
      rw [decide_eq_true_eq, targetOf_eq_some]
      rintro ⟨other, -, hother⟩
      obtain ⟨hnot, hlower⟩ := target_eq_extension.mp hother
      rw [attribute_congr hlower, hname] at hnot
      cases hnot
    rw [hpassed, hnil, ← hnone, Delivery.getExtension]
    cases p.deliver.headers (headerPrefix ++ sdk.toLower name) <;> simp
  · have hplain : p.deliver.headers kind.name = none := by
      by_contra hsome
      obtain ⟨name, hname⟩ := hfilled.keys _ (Option.isSome_iff_ne_none.mpr hsome)
      exact kind_name_ne kind name hname.symm
    rw [hpassed]
    refine (passed_eq_iff hkeys (.inr hplain)).trans (forall_congr' fun name => ?_)
    rw [hnone, target_eq_attr]
    exact ⟨fun h hname => h hname.symm (kind_name_ne kind name), fun h hname _ => h hname.symm⟩

theorem keys_update {headers : Headers} {keys : List Name} (h : headers.Keys keys) {key : Name}
    (hkey : key ∉ keys) (v : Value) :
    Headers.Keys (Function.update headers key (some v)) (key :: keys) := by
  refine ⟨List.nodup_cons.mpr ⟨hkey, h.1⟩, fun other => ?_⟩
  by_cases heq : other = key <;> simp [heq, h.2]

theorem keys_noHeaders : noHeaders.Keys [] :=
  ⟨List.nodup_nil, by simp [noHeaders]⟩

/-- The publishing of an extension. -/
def sharded : Publishing :=
  ⟨"", some (Function.update noHeaders (headerPrefix ++ "shard".toList) (some (.int64 7))), [1]⟩

theorem metadata_agrees_shard :
    ∃ j, sharded.deliver.readBinary plainSDK journal [headerPrefix ++ "shard".toList] ⟨[], []⟩ =
        .ok j ∧
      j.of (.extension "shard".toList) = [some (.int64 7)] ∧
      sharded.deliver.getExtension plainSDK "SHARD".toList = some (.int64 7) := by
  have hw : written (amqpMessageWriter plainSDK)
      [.extension "shard".toList (some (.int32 7)), .data [1]] (start ⟨"", none, []⟩) =
        .ok sharded := rfl
  obtain ⟨j, hread, hext, -⟩ := metadata_agrees_with_readBinary plainSDK_lawful hw (by decide)
    (keys_update keys_noHeaders List.not_mem_nil _)
  refine ⟨j, hread, (hext "SHARD".toList (by decide)).mpr ?_, by decide⟩
  intro other _ hne
  have hlower : plainSDK.toLower "SHARD".toList = "shard".toList := by decide
  rw [hlower] at hne
  exact (Function.update_of_ne hne (some _) fun _ => none)

/-- An id and an extension with a capital letter are passed on by `ReadBinary`, but not found. -/
theorem metadata_misses_id_and_shard :
    ∃ p keys j, written (amqpMessageWriter plainSDK) [.attr ⟨.v1, .id⟩ (some (.string "7")),
        .extension "Shard".toList (some (.int32 7))] (start ⟨"", none, []⟩) = .ok p ∧
      p.deliver.headers.Keys keys ∧
      p.deliver.readBinary plainSDK journal keys ⟨[], []⟩ = .ok j ∧
      j.of (.attr .id) = [some (.string "7")] ∧
      p.deliver.getAttribute .id = (some .id, none) ∧
      j.of (.extension "shard".toList) = [some (.int64 7)] ∧
      p.deliver.getExtension plainSDK "Shard".toList = none :=
  ⟨_, _, _, rfl, keys_update (keys_update keys_noHeaders List.not_mem_nil _) (by decide) _, rfl,
    by decide, by decide, by decide, by decide⟩

end Fries.CloudEvents
