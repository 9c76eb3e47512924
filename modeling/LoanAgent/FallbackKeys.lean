import LoanAgent.Intake
import LoanAgent.JsonText
import LoanAgent.Library.Codes

/-! The key of a message without a header. It hashes a JSON text of the message,
in which the fields that are `None` are left out and the content of an attachment
is replaced by its digest; a time is dumped with its offset, which `==` on times
does not look at. No text of a string, of an object of such values or of an array
goes on as another. Proved: the text is injective on the messages, and two messages
whose hashed texts do not collide have one key exactly when they agree in every
field, their times in clock and offset; messages that are equal may have two keys. -/

namespace LoanAgent

open Codes

/-! ### Texts of JSON values -/

/-- The texts of strings. -/
def stringTexts : Set Text := Set.range (jsonString true)

/-- The texts of objects with values of a class. -/
def objectTexts (V : Set Text) : Set Text := {x | ∃ ms, (∀ m ∈ ms, m.2 ∈ V) ∧ x = jsonObject ms}

/-- The texts of arrays with values of a class. -/
def arrayTexts (V : Set Text) : Set Text := sequences '[' ']' ", ".toList V

theorem jsonString_append_inj {a b s t : Text} (h : jsonString true a ++ s = jsonString true b ++ t) :
    a = b ∧ s = t := by
  have hread : ∀ c u : Text, scanString (a.length + b.length + 1) ((jsonString true c ++ u).drop 1) =
      scanString (a.length + b.length + 1) (c.flatMap (escapeChar true) ++ '"' :: u) := by
    intro c u
    simp only [jsonString, List.cons_append, List.append_assoc, List.nil_append, List.drop_succ_cons,
      List.drop_zero]
  have hscan := hread a s
  rw [h, hread b t, scanString_jsonString true b _ t (by omega),
    scanString_jsonString true a _ s (by omega)] at hscan
  obtain ⟨rfl, rfl⟩ := Prod.mk.inj (Option.some.inj hscan)
  exact ⟨rfl, rfl⟩

theorem jsonString_injective : Function.Injective (jsonString true) := fun _ _ h =>
  (jsonString_append_inj (congrArg (· ++ []) h)).1

theorem prefixFree_stringTexts : PrefixFree stringTexts := by
  rintro _ ⟨a, rfl⟩ _ ⟨b, rfl⟩ s t h
  obtain ⟨rfl, rfl⟩ := jsonString_append_inj h
  exact ⟨rfl, rfl⟩

theorem begins_stringTexts {P : Char → Prop} (h : P '"') : Begins P stringTexts := by
  rintro _ ⟨a, rfl⟩
  exact ⟨_, _, rfl, h⟩

theorem begins_objectTexts {P : Char → Prop} (h : P '\x7b') (V : Set Text) : Begins P (objectTexts V) := by
  rintro _ ⟨ms, -, rfl⟩
  exact ⟨_, _, rfl, h⟩

theorem begins_arrayTexts {P : Char → Prop} (h : P '[') (V : Set Text) : Begins P (arrayTexts V) := by
  rintro _ ⟨l, -, rfl⟩
  exact ⟨_, _, rfl, h⟩

section Objects
variable {V : Set Text}

/-- The text of a member. -/
def jsonMember (m : Text × Text) : Text := jsonString true m.1 ++ ':' :: ' ' :: m.2

theorem jsonMember_eq (m : Text × Text) : jsonMember m = jsonString true m.1 ++ [':', ' '] ++ m.2 := by
  rw [jsonMember, List.append_assoc]
  rfl

theorem jsonObject_eq (ms : List (Text × Text)) :
    jsonObject ms = bracketed '\x7b' '\x7d' ", ".toList (ms.map jsonMember) := by
  rw [jsonObject, bracketed, ← join_eq_intercalate]
  rfl

/-- Members are read apart when their values are. -/
theorem jsonMember_append_inj (hV : PrefixFree V) {m n : Text × Text} (hm : m.2 ∈ V) (hn : n.2 ∈ V) {s t : Text}
    (h : jsonMember m ++ s = jsonMember n ++ t) : m = n ∧ s = t := by
  have hcolon : PrefixFree (concat stringTexts {[':', ' ']}) :=
    prefixFree_stringTexts.concat (prefixFree_singleton _)
  rw [jsonMember_eq, jsonMember_eq] at h
  obtain ⟨hkey, hvalue, hst⟩ := hcolon.split hV ⟨_, ⟨m.1, rfl⟩, _, rfl, rfl⟩ ⟨_, ⟨n.1, rfl⟩, _, rfl, rfl⟩ hm hn h
  exact ⟨Prod.ext (jsonString_injective (List.append_cancel_right hkey)) hvalue, hst⟩

theorem jsonObject_append_inj (hV : PrefixFree V) {ms ns : List (Text × Text)} (hms : ∀ m ∈ ms, m.2 ∈ V)
    (hns : ∀ n ∈ ns, n.2 ∈ V) {s t : Text} (h : jsonObject ms ++ s = jsonObject ns ++ t) : ms = ns ∧ s = t := by
  have hmembers : PrefixFree (jsonMember '' {m | m.2 ∈ V}) := by
    rintro _ ⟨m, hm, rfl⟩ _ ⟨n, hn, rfl⟩ s t h
    obtain ⟨rfl, rfl⟩ := jsonMember_append_inj hV hm hn h
    exact ⟨rfl, rfl⟩
  have hquote : Begins (· ≠ '\x7d') (jsonMember '' {m | m.2 ∈ V}) := by
    rintro _ ⟨m, -, rfl⟩
    exact ⟨_, _, rfl, by decide⟩
  have hmem : ∀ ms : List (Text × Text), (∀ m ∈ ms, m.2 ∈ V) →
      ∀ v ∈ ms.map jsonMember, v ∈ jsonMember '' {m | m.2 ∈ V} := by
    intro ms hms v hv
    obtain ⟨m, hm, rfl⟩ := List.mem_map.mp hv
    exact ⟨m, hms m hm, rfl⟩
  rw [jsonObject_eq, jsonObject_eq] at h
  obtain ⟨hmap, hst⟩ := hmembers.bracketed_inj (by decide) hquote (hmem ms hms) (hmem ns hns) h
  refine ⟨?_, hst⟩
  exact eq_of_map_eq (fun m hm n hn heq => (jsonMember_append_inj hV (hms m hm) (hns n hn)
    (congrArg (· ++ []) heq)).1) hmap

theorem prefixFree_objectTexts (hV : PrefixFree V) : PrefixFree (objectTexts V) := by
  rintro _ ⟨ms, hms, rfl⟩ _ ⟨ns, hns, rfl⟩ s t h
  obtain ⟨rfl, rfl⟩ := jsonObject_append_inj hV hms hns h
  exact ⟨rfl, rfl⟩

theorem prefixFree_arrayTexts (hV : PrefixFree V) (hbegins : Begins (· ≠ ']') V) : PrefixFree (arrayTexts V) :=
  hV.sequences '[' _ (by decide) hbegins

/-- An optional member in front of members of other keys is read apart. -/
theorem optionalMember_append_inj {key : String} {o o' : Option Text} {rest rest' : List (Text × Text)}
    (hrest : ∀ m ∈ rest, m.1 ≠ key.toList) (hrest' : ∀ m ∈ rest', m.1 ≠ key.toList)
    (h : optionalMember key o ++ rest = optionalMember key o' ++ rest') : o = o' ∧ rest = rest' := by
  cases o with
  | none =>
    cases o' with
    | none => exact ⟨rfl, h⟩
    | some v' =>
      have heq : rest = (key.toList, jsonString true v') :: rest' := h
      exact absurd rfl (hrest _ (heq ▸ List.mem_cons_self))
  | some v =>
    cases o' with
    | none =>
      have heq : (key.toList, jsonString true v) :: rest = rest' := h
      exact absurd rfl (hrest' _ (heq ▸ List.mem_cons_self))
    | some v' =>
      obtain ⟨hvalue, hrest⟩ := List.cons.inj h
      exact ⟨congrArg some (jsonString_injective (Prod.mk.inj hvalue).2), hrest⟩

theorem mem_optionalMember {key : String} {o : Option Text} {m : Text × Text} (h : m ∈ optionalMember key o) :
    m.1 = key.toList ∧ m.2 ∈ stringTexts := by
  obtain ⟨v, -, rfl⟩ := List.mem_map.mp h
  exact ⟨rfl, v, rfl⟩

end Objects

/-! ### The hashed text -/

section Payload
variable {py : Python}

/-- The members of an attachment. -/
def attachmentMembers (py : Python) (a : AttachmentIn) : List (Text × Text) :=
  optionalMember "content_base64_sha256" (a.contentBase64.map fun s => py.sha256 (encodeUtf8 s)) ++
    [("file_type".toList, jsonString true a.fileType)] ++ optionalMember "filename" a.filename ++
    optionalMember "url" a.url

/-- The members of a message. -/
def messageMembers (py : Python) (m : IncomingMessageWebhook) : List (Text × Text) :=
  [("attachments".toList, '[' :: (join ", ".toList (m.attachments.map (attachmentPayload py)) ++ [']'])),
    ("channel".toList, jsonString true m.channel.value)] ++
    optionalMember "sent_at" (m.sentAt.map py.jsonDatetime) ++ optionalMember "text" m.text ++
    [("user_id".toList, jsonString true m.userId)]

/-- The text that is hashed. -/
def fallbackPayload (py : Python) (m : IncomingMessageWebhook) : Text := jsonObject (messageMembers py m)

theorem fallbackIdempotencyKey_eq (m : IncomingMessageWebhook) :
    fallbackIdempotencyKey py m = "auto-".toList ++ (py.sha256 (encodeUtf8 (fallbackPayload py m))).take 32 := rfl

/-- Every byte string that is hashed for the key of a message. -/
def hashedBytes (py : Python) (m : IncomingMessageWebhook) : Set Bytes :=
  {b | b = encodeUtf8 (fallbackPayload py m) ∨ ∃ a ∈ m.attachments, ∃ s ∈ a.contentBase64, b = encodeUtf8 s}

theorem encodeUtf8_injective : Function.Injective encodeUtf8 := by
  intro s t h
  have henc : List.utf8Encode s = List.utf8Encode t := congrArg List.toByteArray h
  have hdec := congrArg ByteArray.utf8Decode? henc
  rw [List.utf8Decode?_utf8Encode, List.utf8Decode?_utf8Encode] at hdec
  simpa using hdec

theorem attachmentMembers_texts {a : AttachmentIn} {x : Text × Text} (h : x ∈ attachmentMembers py a) :
    x.2 ∈ stringTexts := by
  simp only [attachmentMembers, List.mem_append, List.mem_singleton] at h
  rcases h with ((h | rfl) | h) | h
  · exact (mem_optionalMember h).2
  · exact ⟨_, rfl⟩
  · exact (mem_optionalMember h).2
  · exact (mem_optionalMember h).2

/-- Digests that do not collide leave an attachment to be read off its members. -/
theorem attachmentMembers_inj {a b : AttachmentIn}
    (hdigest : ∀ s ∈ a.contentBase64, ∀ t ∈ b.contentBase64,
      py.sha256 (encodeUtf8 s) = py.sha256 (encodeUtf8 t) → s = t)
    (h : attachmentMembers py a = attachmentMembers py b) : a = b := by
  have hkeys : ∀ (x y : Option Text) (v : Text), ∀ m ∈ ("file_type".toList, v) ::
      (optionalMember "filename" x ++ optionalMember "url" y), m.1 ≠ "content_base64_sha256".toList := by
    intro x y v m hm
    simp only [List.mem_cons, List.mem_append] at hm
    rcases hm with rfl | hm | hm
    · exact (by decide : "file_type".toList ≠ "content_base64_sha256".toList)
    · rw [(mem_optionalMember hm).1]
      decide
    · rw [(mem_optionalMember hm).1]
      decide
  have hurl : ∀ (y : Option Text), ∀ m ∈ optionalMember "url" y, m.1 ≠ "filename".toList := by
    intro y m hm
    rw [(mem_optionalMember hm).1]
    decide
  simp only [attachmentMembers, List.append_assoc, List.singleton_append] at h
  obtain ⟨hcontent, h⟩ := optionalMember_append_inj (hkeys _ _ _) (hkeys _ _ _) h
  obtain ⟨htype, h⟩ := List.cons.inj h
  obtain ⟨hname, h⟩ := optionalMember_append_inj (hurl _) (hurl _) h
  obtain ⟨hlink, -⟩ := @optionalMember_append_inj _ _ _ [] [] (by simp) (by simp)
    (congrArg (· ++ []) h)
  have hbase : a.contentBase64 = b.contentBase64 := by
    cases ha : a.contentBase64 with
    | none =>
      rw [ha, Option.map_none, eq_comm, Option.map_eq_none_iff] at hcontent
      exact hcontent.symm
    | some s =>
      cases hb : b.contentBase64 with
      | none =>
        rw [ha, hb] at hcontent
        cases hcontent
      | some t =>
        rw [ha, hb] at hcontent
        rw [hdigest s ha t hb (Option.some.inj hcontent)]
  cases a
  cases b
  simp only [AttachmentIn.mk.injEq]
  exact ⟨jsonString_injective (Prod.mk.inj htype).2, hname, hbase, hlink⟩

/-- The values of the members of a message. -/
theorem prefixFree_messageValues : PrefixFree (arrayTexts (objectTexts stringTexts) ∪ stringTexts) :=
  (prefixFree_arrayTexts (prefixFree_objectTexts prefixFree_stringTexts)
    (begins_objectTexts (by decide) _)).union prefixFree_stringTexts
    (begins_arrayTexts (P := (· = '[')) rfl _) (begins_stringTexts (by decide))

theorem attachmentsText_eq (m : IncomingMessageWebhook) :
    '[' :: (join ", ".toList (m.attachments.map (attachmentPayload py)) ++ [']']) =
      bracketed '[' ']' ", ".toList (m.attachments.map (attachmentPayload py)) := by
  rw [bracketed, ← join_eq_intercalate]

theorem attachmentPayload_text (a : AttachmentIn) : attachmentPayload py a ∈ objectTexts stringTexts :=
  ⟨attachmentMembers py a, fun _ h => attachmentMembers_texts h, rfl⟩

theorem messageMembers_texts {m : IncomingMessageWebhook} {x : Text × Text} (h : x ∈ messageMembers py m) :
    x.2 ∈ arrayTexts (objectTexts stringTexts) ∪ stringTexts := by
  simp only [messageMembers, List.mem_append, List.mem_cons, List.not_mem_nil, or_false] at h
  rcases h with (((rfl | rfl) | h) | h) | rfl
  · refine .inl ⟨_, ?_, attachmentsText_eq m⟩
    intro v hv
    obtain ⟨a, -, rfl⟩ := List.mem_map.mp hv
    exact attachmentPayload_text a
  · exact .inr ⟨_, rfl⟩
  · exact .inr (mem_optionalMember h).2
  · exact .inr (mem_optionalMember h).2
  · exact .inr ⟨_, rfl⟩

theorem channel_value_injective : Function.Injective Channel.value := by
  intro c d
  cases c <;> cases d <;> decide

/-- A message is read off its members. -/
theorem messageMembers_inj (hiso : Function.Injective py.jsonDatetime) {m n : IncomingMessageWebhook}
    (hdigest : ∀ a ∈ m.attachments, ∀ b ∈ n.attachments, ∀ s ∈ a.contentBase64, ∀ t ∈ b.contentBase64,
      py.sha256 (encodeUtf8 s) = py.sha256 (encodeUtf8 t) → s = t)
    (h : messageMembers py m = messageMembers py n) : m = n := by
  have hsent : ∀ (x : Option Text) (v : Text), ∀ e ∈ optionalMember "text" x ++ [("user_id".toList, v)],
      e.1 ≠ "sent_at".toList := by
    intro x v e he
    rcases List.mem_append.mp he with he | he
    · rw [(mem_optionalMember he).1]
      decide
    · rw [List.mem_singleton.mp he]
      exact (by decide : "user_id".toList ≠ "sent_at".toList)
  have htext : ∀ v : Text, ∀ e ∈ [("user_id".toList, v)], e.1 ≠ "text".toList := by
    intro v e he
    rw [List.mem_singleton.mp he]
    exact (by decide : "user_id".toList ≠ "text".toList)
  simp only [messageMembers, List.append_assoc, List.cons_append, List.nil_append] at h
  obtain ⟨hattachments, h⟩ := List.cons.inj h
  obtain ⟨hchannel, h⟩ := List.cons.inj h
  obtain ⟨hsentAt, h⟩ := optionalMember_append_inj (hsent _ _) (hsent _ _) h
  obtain ⟨htexts, h⟩ := optionalMember_append_inj (htext _) (htext _) h
  have huser := jsonString_injective (Prod.mk.inj (List.cons.inj h).1).2
  have hbracketed := (Prod.mk.inj hattachments).2
  rw [attachmentsText_eq, attachmentsText_eq] at hbracketed
  have hpayloads : ∀ m : IncomingMessageWebhook, ∀ v ∈ m.attachments.map (attachmentPayload py),
      v ∈ objectTexts stringTexts := by
    intro m v hv
    obtain ⟨a, -, rfl⟩ := List.mem_map.mp hv
    exact attachmentPayload_text a
  obtain ⟨hmap, -⟩ := (prefixFree_objectTexts prefixFree_stringTexts).bracketed_inj (by decide)
    (begins_objectTexts (by decide) _) (hpayloads m) (hpayloads n) (congrArg (· ++ []) hbracketed)
  have hlist : m.attachments = n.attachments := by
    refine eq_of_map_eq (fun a ha b hb heq => attachmentMembers_inj (hdigest a ha b hb) ?_) hmap
    exact (jsonObject_append_inj prefixFree_stringTexts (fun _ h => attachmentMembers_texts h)
      (fun _ h => attachmentMembers_texts h) (congrArg (· ++ []) heq)).1
  cases m
  cases n
  simp only [IncomingMessageWebhook.mk.injEq]
  exact ⟨huser, channel_value_injective (jsonString_injective (Prod.mk.inj hchannel).2), htexts,
    Option.map_injective hiso hsentAt, hlist⟩

/-- Two messages whose hashed texts do not collide have one fallback key exactly
when they agree field for field, their times in what the clock reads and in its offset. -/
theorem fallbackIdempotencyKey_eq_iff (hiso : Function.Injective py.jsonDatetime) {m n : IncomingMessageWebhook}
    (hcollision : Set.InjOn (fun b => (py.sha256 b).take 32) (hashedBytes py m ∪ hashedBytes py n)) :
    fallbackIdempotencyKey py m = fallbackIdempotencyKey py n ↔ m = n := by
  refine ⟨fun h => ?_, fun h => h ▸ rfl⟩
  rw [fallbackIdempotencyKey_eq, fallbackIdempotencyKey_eq] at h
  have hpayload := encodeUtf8_injective
    (hcollision (.inl (.inl rfl)) (.inr (.inl rfl)) (List.append_cancel_left h))
  have hmembers := (jsonObject_append_inj prefixFree_messageValues (fun _ h => messageMembers_texts h)
    (fun _ h => messageMembers_texts h) (congrArg (· ++ []) hpayload)).1
  refine messageMembers_inj hiso (fun a ha b hb s hs t ht heq => ?_) hmembers
  exact encodeUtf8_injective (hcollision (.inl (.inr ⟨a, ha, s, hs, rfl⟩)) (.inr (.inr ⟨b, hb, t, ht, rfl⟩))
    (congrArg (List.take 32) heq))

end Payload

/-- `==` on `sent_at`. -/
def equalTimes : Option Datetime → Option Datetime → Bool
  | none, none => true
  | some d, some d' => d.equals d'
  | _, _ => false

/-- `m == n` on messages. -/
def IncomingMessageWebhook.equals (m n : IncomingMessageWebhook) : Bool :=
  m.userId = n.userId ∧ m.channel = n.channel ∧ m.text = n.text ∧ equalTimes m.sentAt n.sentAt = true ∧
    m.attachments = n.attachments

/-! ### Two messages -/

theorem intText_injective : Function.Injective intText := by
  intro n m h
  have hread := @loads_intText asciiPython n
  rw [h, loads_intText] at hread
  simpa [eq_comm] using hread

/-- A platform whose digests show the length of a text. -/
def lengthPython : Python := { asciiPython with sha256 := fun b => Nat.toDigits 16 b.length }

/-- A short text message. -/
def shortMessage (user : Text) (huser : 1 ≤ user.length ∧ user.length ≤ 255) : IncomingMessageWebhook where
  userId := user
  channel := .sms
  text := some "hi".toList
  userId_length := huser
  text_length := by rintro s ⟨⟩; decide
  attachments_length := by decide
  has_content := .inl (by simp)

theorem hashedBytes_shortMessage (py : Python) (user : Text) (huser : 1 ≤ user.length ∧ user.length ≤ 255) :
    hashedBytes py (shortMessage user huser) = {encodeUtf8 (fallbackPayload py (shortMessage user huser))} := by
  ext b
  constructor
  · rintro (rfl | ⟨a, ha, -⟩)
    · rfl
    · cases ha
  · rintro rfl
    exact .inl rfl

/-- The text of a date and that of an offset are read apart. -/
theorem jsonDatetime_injective : Function.Injective asciiPython.jsonDatetime := by
  have hplain : ∀ n : ℤ, ∀ c ∈ intText n, decide (c ≠ 'Z') = true := by
    intro n c hc
    rcases mem_intText hc with rfl | hdigit
    · rfl
    · exact decide_eq_true fun h => absurd (h ▸ hdigit) (by decide)
  have hclock : ∀ d : Datetime, (asciiPython.jsonDatetime d).takeWhile (· ≠ 'Z') = intText d.clock := by
    rintro ⟨clock, _ | minutes⟩ <;>
    · change (intText clock ++ _).takeWhile _ = _
      rw [List.takeWhile_append_of_pos (hplain clock)]
      simp
  have hoffset : ∀ d : Datetime, (asciiPython.jsonDatetime d).dropWhile (· ≠ 'Z') =
      d.offset.elim [] fun minutes => 'Z' :: intText minutes := by
    rintro ⟨clock, _ | minutes⟩ <;>
    · change (intText clock ++ _).dropWhile _ = _
      rw [List.dropWhile_append_of_pos (hplain clock)]
      simp
  rintro d d' h
  have hc : d.clock = d'.clock := intText_injective (by rw [← hclock d, h, hclock d'])
  have ho := (hoffset d).symm.trans (h ▸ hoffset d')
  obtain ⟨clock, offset⟩ := d
  obtain ⟨clock', offset'⟩ := d'
  obtain rfl : clock = clock' := hc
  cases offset with
  | none =>
    cases offset' with
    | none => rfl
    | some minutes => cases ho
  | some minutes =>
    cases offset' with
    | none => cases ho
    | some minutes' => rw [intText_injective (List.cons.inj ho).2]

theorem fallbackIdempotencyKey_eq_iff_shortMessage :
    fallbackIdempotencyKey lengthPython (shortMessage "alice".toList (by decide)) =
      fallbackIdempotencyKey lengthPython (shortMessage "bob".toList (by decide)) ↔
    shortMessage "alice".toList (by decide) = shortMessage "bob".toList (by decide) := by
  refine @fallbackIdempotencyKey_eq_iff lengthPython jsonDatetime_injective _ _ ?_
  rw [hashedBytes_shortMessage, hashedBytes_shortMessage]
  have hdiffer : (lengthPython.sha256 (encodeUtf8 (fallbackPayload lengthPython
      (shortMessage "alice".toList (by decide))))).take 32 ≠
    (lengthPython.sha256 (encodeUtf8 (fallbackPayload lengthPython
      (shortMessage "bob".toList (by decide))))).take 32 := by decide +kernel
  rintro _ (rfl | rfl) _ (rfl | rfl) h
  · rfl
  · exact absurd h hdiffer
  · exact absurd h.symm hdiffer
  · rfl

/-- A message of midnight in UTC, with the clock of some offset. -/
def midnightMessage (minutes : ℤ) : IncomingMessageWebhook :=
  { shortMessage "alice".toList (by decide) with sentAt := some ⟨minutes * 60000000, some minutes⟩ }

theorem equal_messages_differ : Function.Injective lengthPython.jsonDatetime ∧
    Set.InjOn (fun b => (lengthPython.sha256 b).take 32)
      (hashedBytes lengthPython (midnightMessage 0) ∪ hashedBytes lengthPython (midnightMessage 330)) ∧
    (midnightMessage 0).equals (midnightMessage 330) = true ∧
    fallbackIdempotencyKey lengthPython (midnightMessage 0) ≠
      fallbackIdempotencyKey lengthPython (midnightMessage 330) := by
  have hbytes : ∀ minutes, hashedBytes lengthPython (midnightMessage minutes) =
      {encodeUtf8 (fallbackPayload lengthPython (midnightMessage minutes))} := by
    intro minutes
    ext b
    refine ⟨?_, .inl⟩
    rintro (rfl | ⟨a, ha, -⟩)
    · rfl
    · cases ha
  have hdiffer : (lengthPython.sha256 (encodeUtf8 (fallbackPayload lengthPython (midnightMessage 0)))).take 32 ≠
      (lengthPython.sha256 (encodeUtf8 (fallbackPayload lengthPython (midnightMessage 330)))).take 32 := by
    decide +kernel
  refine ⟨jsonDatetime_injective, ?_, by decide +kernel, fun h => ?_⟩
  · rw [hbytes, hbytes]
    rintro _ (rfl | rfl) _ (rfl | rfl) h
    · rfl
    · exact absurd h hdiffer
    · exact absurd h.symm hdiffer
    · rfl
  · rw [fallbackIdempotencyKey_eq, fallbackIdempotencyKey_eq] at h
    exact hdiffer (List.append_cancel_left h)

end LoanAgent
