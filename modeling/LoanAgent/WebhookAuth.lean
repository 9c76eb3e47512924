import LoanAgent.Python

/-! Signatures of webhook requests. Twilio signs the URL with the body behind it,
SendGrid the body with the timestamp behind it, both with one secret and nothing
in between. Proved: an accepted request presents a pair whose bytes were signed,
and the pair itself was signed exactly when no other signed pair has its bytes;
and no exception but the declared ones escapes exactly when the signature that is
compared is ASCII and the timestamp is no integer beyond the floats. -/

namespace LoanAgent

/-! ### Texts of integers -/

/-- `int(s)`; `none` stands for `ValueError`. -/
def Python.intOfText (py : Python) (s : Text) : Option ℤ :=
  let (negative, body) := match py.numeral s with
    | '-' :: r => (true, r)
    | '+' :: r => (false, r)
    | r => (false, r)
  (dropUnderscores ' ' body).bind fun digits =>
    if digits = [] ∨ !digits.all Char.isDigit ∨ 4300 < digits.length then none
    else some (if negative then -(digitsValue digits : ℤ) else digitsValue digits)

/-! ### Texts of digests -/

/-- `s.encode()`. -/
def utf8 (s : Text) : Bytes := s.flatMap String.utf8EncodeChar

/-- `digest.hex()`. -/
def hexText (digest : Bytes) : Text :=
  digest.flatMap fun b => [Nat.digitChar (b.toNat / 16), Nat.digitChar (b.toNat % 16)]

def base64Char (n : ℕ) : Char :=
  "ABCDEFGHIJKLMNOPQRSTUVWXYZabcdefghijklmnopqrstuvwxyz0123456789+/".toList.getD n '='

/-- `base64.b64encode(digest).decode()`. -/
def base64Text : Bytes → Text
  | [] => []
  | [a] => [base64Char (a.toNat / 4), base64Char (a.toNat % 4 * 16), '=', '=']
  | [a, b] => [base64Char (a.toNat / 4), base64Char (a.toNat % 4 * 16 + b.toNat / 16),
      base64Char (b.toNat % 16 * 4), '=']
  | a :: b :: c :: rest => base64Char (a.toNat / 4) :: base64Char (a.toNat % 4 * 16 + b.toNat / 16) ::
      base64Char (b.toNat % 16 * 4 + c.toNat / 64) :: base64Char (c.toNat % 64) :: base64Text rest

/-! ### Verification -/

/-- How a verification fails: an `HTTPException`, or an exception that is not caught. -/
inductive AuthError
  | http (status : ℕ) (detail : Text)
  | typeError
  | overflow
  deriving DecidableEq

structure WebhookSettings where
  webhookSigningSecret : Option Text
  requireWebhookSignature : Bool

/-- What is read of a request. -/
structure AuthRequest where
  url : Text
  body : Bytes
  xTwilioSignature : Option Text := none
  xSendgridSignature : Option Text := none
  xRequestTimestamp : Option Text := none

/-- `hmac.compare_digest` on strings, which have to be ASCII. -/
def compareDigest (expected signature : Text) : Except AuthError Bool :=
  if expected.all (·.toNat < 128) && signature.all (·.toNat < 128) then .ok (expected = signature)
  else .error .typeError

section Verify
variable (py : Python) (hmac : Bytes → Bytes → Bytes)

/-- `_verify_twilio_signature`. -/
def verifyTwilioSignature (secret url : Text) (body : Bytes) (signature : Text) : Except AuthError Unit :=
  let digest := hmac (utf8 secret) (utf8 url ++ body)
  match compareDigest (hexText digest) signature with
  | .error e => .error e
  | .ok true => .ok ()
  | .ok false => match compareDigest (base64Text digest) signature with
    | .error e => .error e
    | .ok true => .ok ()
    | .ok false => .error (.http 401 "Invalid Twilio signature.".toList)

/-- `_verify_sendgrid_signature`. The difference to a time within tolerance is an exact float. -/
def verifySendgridSignature (now : ℚ) (secret : Text) (body : Bytes) (timestamp signature : Text) :
    Except AuthError Unit :=
  match py.intOfText timestamp with
  | none => .error (.http 400 "Invalid X-Request-Timestamp.".toList)
  | some ts =>
    if (py.floatOfInt ts).isNone then .error .overflow
    else if 300 < |now - ts| then .error (.http 401 "Stale SendGrid timestamp.".toList)
    else match compareDigest (hexText (hmac (utf8 secret) (body ++ utf8 timestamp))) signature with
      | .error e => .error e
      | .ok true => .ok ()
      | .ok false => .error (.http 401 "Invalid SendGrid signature.".toList)

def verifyWebhookSignature (settings : WebhookSettings) (now : ℚ) (r : AuthRequest) : Except AuthError Unit :=
  if !settings.requireWebhookSignature then .ok ()
  else if settings.webhookSigningSecret.getD [] = [] then
    .error (.http 500 "Webhook signature verification enabled but secret not configured.".toList)
  else if r.xTwilioSignature.getD [] ≠ [] then
    verifyTwilioSignature hmac (settings.webhookSigningSecret.getD []) r.url r.body (r.xTwilioSignature.getD [])
  else if r.xSendgridSignature.getD [] ≠ [] then
    if r.xRequestTimestamp.getD [] = [] then
      .error (.http 400 "Missing X-Request-Timestamp header for SendGrid signature verification.".toList)
    else verifySendgridSignature py hmac now (settings.webhookSigningSecret.getD []) r.body
      (r.xRequestTimestamp.getD []) (r.xSendgridSignature.getD [])
  else .error (.http 400
    "Missing required signature header (X-Twilio-Signature or X-SendGrid-Signature).".toList)

end Verify

/-! ### What was signed -/

/-- A pair as one of the two schemes signs it. -/
inductive SignedPair
  | twilio (url : Text) (body : Bytes)
  | sendgrid (body : Bytes) (timestamp : Text)
  deriving DecidableEq

/-- The bytes of which a signature is made. -/
def SignedPair.message : SignedPair → Bytes
  | .twilio url body => utf8 url ++ body
  | .sendgrid body timestamp => body ++ utf8 timestamp

/-- The pair that a request presents, under the scheme by which it is verified. -/
def AuthRequest.pair (r : AuthRequest) : Option SignedPair :=
  if r.xTwilioSignature.getD [] ≠ [] then some (.twilio r.url r.body)
  else if r.xSendgridSignature.getD [] ≠ [] ∧ r.xRequestTimestamp.getD [] ≠ [] then
    some (.sendgrid r.body (r.xRequestTimestamp.getD []))
  else none

def AuthRequest.signature (r : AuthRequest) : Text :=
  if r.xTwilioSignature.getD [] ≠ [] then r.xTwilioSignature.getD [] else r.xSendgridSignature.getD []

/-- Some time accepts the timestamp of the pair. -/
def SignedPair.Timely (py : Python) : SignedPair → Prop
  | .twilio _ _ => True
  | .sendgrid _ timestamp => ∃ ts, py.intOfText timestamp = some ts ∧ (py.floatOfInt ts).isNone = false

/-- The signature that a digest has, in one of its two forms. -/
def RightSignature (digest : Bytes) (signature : Text) : Prop :=
  signature = hexText digest ∨ signature = base64Text digest

/-- The request has no right signature of bytes that were never signed. -/
def Unforged (hmac : Bytes → Bytes → Bytes) (secret : Text) (signed : Set SignedPair) (r : AuthRequest) :
    Prop :=
  ∀ x, r.pair = some x → RightSignature (hmac (utf8 secret) x.message) r.signature →
    x.message ∈ SignedPair.message '' signed

section Authentic
variable {py : Python} {hmac : Bytes → Bytes → Bytes} {settings : WebhookSettings} {secret : Text} {now : ℚ}
  {r : AuthRequest}

theorem compareDigest_true {expected signature : Text} (h : compareDigest expected signature = .ok true) :
    signature = expected := by
  unfold compareDigest at h
  split_ifs at h
  simpa [eq_comm] using h

theorem ascii_hexText (digest : Bytes) : (hexText digest).all (·.toNat < 128) = true := by
  have key : ∀ d : Fin 16, (Nat.digitChar d).toNat < 128 := by decide
  simp only [List.all_eq_true, decide_eq_true_eq, hexText, List.mem_flatMap, List.mem_cons, List.not_mem_nil,
    or_false]
  rintro c ⟨b, -, rfl | rfl⟩
  · exact key ⟨b.toNat / 16, by have := b.toNat_lt; omega⟩
  · exact key ⟨b.toNat % 16, Nat.mod_lt _ (by decide)⟩

theorem compareDigest_hexText (digest : Bytes) :
    compareDigest (hexText digest) (hexText digest) = .ok true := by
  rw [compareDigest, ascii_hexText]
  simp

theorem verifyTwilioSignature_ok {url : Text} {body : Bytes} {signature : Text}
    (h : verifyTwilioSignature hmac secret url body signature = .ok ()) :
    RightSignature (hmac (utf8 secret) (SignedPair.twilio url body).message) signature := by
  unfold verifyTwilioSignature at h
  dsimp only at h
  split at h
  · cases h
  next hhex => exact .inl (compareDigest_true hhex)
  · split at h
    · cases h
    next hbase => exact .inr (compareDigest_true hbase)
    · cases h

theorem verifySendgridSignature_ok {body : Bytes} {timestamp signature : Text}
    (h : verifySendgridSignature py hmac now secret body timestamp signature = .ok ()) :
    (SignedPair.sendgrid body timestamp).Timely py ∧
      RightSignature (hmac (utf8 secret) (SignedPair.sendgrid body timestamp).message) signature := by
  unfold verifySendgridSignature at h
  split at h
  · cases h
  next ts hts =>
    split_ifs at h with hfloat hstale
    split at h
    · cases h
    next hhex => exact ⟨⟨ts, hts, Bool.eq_false_iff.mpr hfloat⟩, .inl (compareDigest_true hhex)⟩
    · cases h

/-- An accepted request presents a pair with a right signature. -/
theorem verifyWebhookSignature_ok (hrequire : settings.requireWebhookSignature = true)
    (h : verifyWebhookSignature py hmac settings now r = .ok ()) :
    ∃ x, r.pair = some x ∧ x.Timely py ∧
      RightSignature (hmac (utf8 (settings.webhookSigningSecret.getD [])) x.message) r.signature := by
  unfold verifyWebhookSignature at h
  unfold AuthRequest.pair AuthRequest.signature
  simp only [hrequire, Bool.not_true, Bool.false_eq_true, if_false] at h
  split_ifs at h with hsecret htwilio hsendgrid htimestamp
  · rw [if_pos htwilio, if_pos htwilio]
    exact ⟨_, rfl, trivial, verifyTwilioSignature_ok h⟩
  · rw [if_neg htwilio, if_neg htwilio, if_pos ⟨hsendgrid, htimestamp⟩]
    obtain ⟨htimely, hright⟩ := verifySendgridSignature_ok h
    exact ⟨_, rfl, htimely, hright⟩

/-- A request with the hexadecimal signature of its pair is accepted at some time. -/
theorem verifyWebhookSignature_hexText (hrequire : settings.requireWebhookSignature = true)
    (hsecret : settings.webhookSigningSecret.getD [] ≠ []) (hlength : ∀ k m, (hmac k m).length = 32)
    {x : SignedPair} (hx : x.Timely py) :
    ∃ now r, r.pair = some x ∧ verifyWebhookSignature py hmac settings now r = .ok () := by
  set digest := hmac (utf8 (settings.webhookSigningSecret.getD [])) x.message with hdigest
  have hne : hexText digest ≠ [] := by
    obtain ⟨b, rest, hb⟩ := List.exists_cons_of_length_eq_add_one (hlength _ x.message)
    rw [hdigest, hb, hexText, List.flatMap_cons]
    exact List.cons_ne_nil _ _
  cases x with
  | twilio url body =>
    refine ⟨0, ⟨url, body, some (hexText digest), none, none⟩, if_pos hne, ?_⟩
    have hright : verifyTwilioSignature hmac (settings.webhookSigningSecret.getD []) url body (hexText digest) =
        .ok () := by
      unfold verifyTwilioSignature
      dsimp only
      rw [← SignedPair.message, ← hdigest, compareDigest_hexText]
    simp only [verifyWebhookSignature, hrequire, hsecret, Option.getD_some, ne_eq, hne, not_false_eq_true,
      hright, if_true, if_false, Bool.not_true, Bool.false_eq_true]
  | sendgrid body timestamp =>
    obtain ⟨ts, hts, hfloat⟩ := hx
    have hstamp : timestamp ≠ [] := by
      rintro rfl
      cases hts
    refine ⟨ts, ⟨[], body, none, some (hexText digest), some timestamp⟩, ?_, ?_⟩
    · simp [AuthRequest.pair, hne, hstamp]
    have hright : verifySendgridSignature py hmac ts (settings.webhookSigningSecret.getD []) body timestamp
        (hexText digest) = .ok () := by
      have hfresh : ¬ (300 : ℚ) < |(ts : ℚ) - ts| := by simp
      have hmessage : body ++ utf8 timestamp = (SignedPair.sendgrid body timestamp).message := rfl
      unfold verifySendgridSignature
      rw [hts]
      dsimp only
      rw [hfloat, if_neg Bool.false_ne_true, if_neg hfresh, hmessage, ← hdigest, compareDigest_hexText]
    simp only [verifyWebhookSignature, hrequire, hsecret, Option.getD_some, Option.getD_none, ne_eq, hne,
      hstamp, not_false_eq_true, not_true_eq_false, hright, if_true, if_false, Bool.not_true, Bool.false_eq_true]

/-- With signatures required and a secret set, an accepted request presents a
pair, and a pair is accepted only if it was signed exactly when it was signed,
or nothing signed has its bytes, or no time accepts its timestamp. -/
theorem accepts_signed_iff (hrequire : settings.requireWebhookSignature = true)
    (hsecret : settings.webhookSigningSecret = some secret) (hne : secret ≠ [])
    (hlength : ∀ k m, (hmac k m).length = 32) (signed : Set SignedPair) :
    (∀ now r, verifyWebhookSignature py hmac settings now r = .ok () → ∃ x, r.pair = some x) ∧
      ∀ x : SignedPair,
        (∀ now r, r.pair = some x → Unforged hmac secret signed r →
          verifyWebhookSignature py hmac settings now r = .ok () → x ∈ signed) ↔
        x ∈ signed ∨ x.message ∉ SignedPair.message '' signed ∨ ¬ x.Timely py := by
  have hvalue : settings.webhookSigningSecret.getD [] = secret := by rw [hsecret, Option.getD_some]
  refine ⟨fun now r h => ?_, fun x => ⟨fun h => ?_, fun h now r hr hunforged hok => ?_⟩⟩
  · obtain ⟨x, hx, -⟩ := verifyWebhookSignature_ok hrequire h
    exact ⟨x, hx⟩
  · by_contra hcon
    push Not at hcon
    obtain ⟨hunsigned, hmessage, htimely⟩ := hcon
    obtain ⟨now, r, hr, hok⟩ := verifyWebhookSignature_hexText hrequire (hvalue ▸ hne) hlength htimely
    refine hunsigned (h now r hr (fun y hy _ => ?_) hok)
    obtain rfl := Option.some.inj (hr.symm.trans hy)
    exact hmessage
  · obtain ⟨y, hy, htimely, hright⟩ := verifyWebhookSignature_ok hrequire hok
    obtain rfl := Option.some.inj (hr.symm.trans hy)
    rw [hvalue] at hright
    rcases h with h | h | h
    · exact h
    · exact absurd (hunforged x hr hright) h
    · exact absurd htimely h

end Authentic

/-! ### A shifted digit -/

/-- A digest of 32 bytes that shows a short message. -/
def shortDigest (_ m : Bytes) : Bytes := (m ++ List.replicate 32 0).take 32

theorem length_shortDigest (k m : Bytes) : (shortDigest k m).length = 32 := by
  rw [shortDigest, List.length_take, List.length_append, List.length_replicate]
  omega

def signingSettings : WebhookSettings := ⟨some "secret".toList, true⟩

/-- One signed body that ends in a zero. -/
def signedOrder : Set SignedPair := {.sendgrid (utf8 "pay 10".toList) "1700000000".toList}

/-- The zero as a digit of the timestamp. -/
def shiftedOrder : AuthRequest where
  url := []
  body := utf8 "pay 1".toList
  xSendgridSignature := some (hexText (shortDigest [] (utf8 "pay 101700000000".toList)))
  xRequestTimestamp := some "01700000000".toList

theorem shiftedOrder_accepted :
    ¬ ∀ now r x, Unforged shortDigest "secret".toList signedOrder r →
      verifyWebhookSignature asciiPython shortDigest signingSettings now r = .ok () →
      r.pair = some x → x ∈ signedOrder := by
  have hpair : shiftedOrder.pair = some (.sendgrid (utf8 "pay 1".toList) "01700000000".toList) := by
    decide +kernel
  have haccepted : verifyWebhookSignature asciiPython shortDigest signingSettings 1700000000 shiftedOrder =
      .ok () := by decide +kernel
  have hunforged : Unforged shortDigest "secret".toList signedOrder shiftedOrder := by
    intro x hx _
    obtain rfl := Option.some.inj (hpair.symm.trans hx)
    exact ⟨_, rfl, by decide +kernel⟩
  intro h
  have hin := h 1700000000 shiftedOrder _ hunforged haccepted hpair
  rw [signedOrder, Set.mem_singleton_iff] at hin
  revert hin
  decide +kernel

theorem accepts_signed_iff_signedOrder :
    (∀ now r, verifyWebhookSignature asciiPython shortDigest signingSettings now r = .ok () →
      ∃ x, r.pair = some x) ∧
      ∀ x : SignedPair,
        (∀ now r, r.pair = some x → Unforged shortDigest "secret".toList signedOrder r →
          verifyWebhookSignature asciiPython shortDigest signingSettings now r = .ok () → x ∈ signedOrder) ↔
        x ∈ signedOrder ∨ x.message ∉ SignedPair.message '' signedOrder ∨ ¬ x.Timely asciiPython :=
  accepts_signed_iff rfl rfl (by decide) length_shortDigest signedOrder

/-! ### Declared failures -/

/-- The verification returns or raises `HTTPException` with status 400, 401 or 500. -/
def Declared : Except AuthError Unit → Prop
  | .ok _ => True
  | .error (.http status _) => status = 400 ∨ status = 401 ∨ status = 500
  | .error _ => False

def isAscii (s : Text) : Bool := s.all (·.toNat < 128)

/-- What is compared is ASCII, and the integer of a timestamp is a float. -/
def Checkable (py : Python) (settings : WebhookSettings) (now : ℚ) (r : AuthRequest) : Prop :=
  settings.requireWebhookSignature = true → settings.webhookSigningSecret.getD [] ≠ [] →
    (r.xTwilioSignature.getD [] ≠ [] → isAscii (r.xTwilioSignature.getD []) = true) ∧
    (r.xTwilioSignature.getD [] = [] → r.xSendgridSignature.getD [] ≠ [] →
      ∀ ts, py.intOfText (r.xRequestTimestamp.getD []) = some ts →
        (py.floatOfInt ts).isSome = true ∧
          (|now - ts| ≤ 300 → isAscii (r.xSendgridSignature.getD []) = true))

section Failures
variable {py : Python} {hmac : Bytes → Bytes → Bytes} {settings : WebhookSettings} {secret : Text} {now : ℚ}
  {r : AuthRequest}

theorem base64Char_ascii (n : ℕ) : (base64Char n).toNat < 128 := by
  have htable : isAscii "ABCDEFGHIJKLMNOPQRSTUVWXYZabcdefghijklmnopqrstuvwxyz0123456789+/".toList = true := by
    decide +kernel
  rw [base64Char, List.getD_eq_getElem?_getD]
  cases hc : "ABCDEFGHIJKLMNOPQRSTUVWXYZabcdefghijklmnopqrstuvwxyz0123456789+/".toList[n]? with
  | none => decide
  | some c => exact of_decide_eq_true (List.all_eq_true.mp htable c (List.mem_of_getElem? hc))

theorem ascii_base64Text (digest : Bytes) : isAscii (base64Text digest) = true := by
  have hpad : ('=').toNat < 128 := by decide
  unfold isAscii
  fun_induction base64Text digest with
  | case1 => rfl
  | case2 => simp only [List.all_cons, List.all_nil, base64Char_ascii, hpad, decide_true, Bool.and_self]
  | case3 => simp only [List.all_cons, List.all_nil, base64Char_ascii, hpad, decide_true, Bool.and_self]
  | case4 a b c rest ih => simp only [List.all_cons, base64Char_ascii, decide_true, Bool.true_and, ih]

/-- Against an ASCII text a comparison fails exactly on a signature that is not ASCII. -/
theorem compareDigest_cases {expected : Text} (h : isAscii expected = true) (signature : Text) :
    (isAscii signature = true ∧ ∃ b, compareDigest expected signature = .ok b) ∨
      (isAscii signature = false ∧ compareDigest expected signature = .error .typeError) := by
  unfold isAscii at h
  unfold isAscii compareDigest
  rw [h, Bool.true_and]
  cases signature.all (·.toNat < 128) with
  | true => exact .inl ⟨rfl, _, if_pos rfl⟩
  | false => exact .inr ⟨rfl, if_neg Bool.false_ne_true⟩

theorem verifyTwilioSignature_declared (url : Text) (body : Bytes) (signature : Text) :
    Declared (verifyTwilioSignature hmac secret url body signature) ↔ isAscii signature = true := by
  unfold verifyTwilioSignature
  dsimp only
  rcases compareDigest_cases (ascii_hexText (hmac (utf8 secret) (utf8 url ++ body))) signature with
    ⟨hascii, b, hhex⟩ | ⟨hascii, hhex⟩
  · obtain ⟨-, b', hbase⟩ | ⟨hnot, -⟩ :=
      compareDigest_cases (ascii_base64Text (hmac (utf8 secret) (utf8 url ++ body))) signature
    · rw [hhex, hbase, hascii]
      cases b <;> cases b' <;> simp [Declared]
    · rw [hascii] at hnot
      cases hnot
  · rw [hhex, hascii]
    simp [Declared]

theorem verifySendgridSignature_declared (body : Bytes) (timestamp signature : Text) :
    Declared (verifySendgridSignature py hmac now secret body timestamp signature) ↔
      ∀ ts, py.intOfText timestamp = some ts →
        (py.floatOfInt ts).isSome = true ∧ (|now - ts| ≤ 300 → isAscii signature = true) := by
  unfold verifySendgridSignature
  cases py.intOfText timestamp with
  | none => simp [Declared]
  | some ts =>
    simp only [Option.some.injEq, forall_eq']
    cases py.floatOfInt ts with
    | none => simp [Declared]
    | some x =>
      simp only [Option.isNone_some, Bool.false_eq_true, if_false, Option.isSome_some, true_and]
      split_ifs with hstale
      · simp [Declared, hstale]
      rw [not_lt] at hstale
      rcases compareDigest_cases (ascii_hexText (hmac (utf8 secret) (body ++ utf8 timestamp))) signature with
        ⟨hascii, b, hhex⟩ | ⟨hascii, hhex⟩
      · rw [hhex, hascii]
        cases b <;> simp [Declared]
      · rw [hhex, hascii]
        simp [Declared, hstale]

/-- A verification fails in a declared way exactly when what it compares is
ASCII and the timestamp it reads, if any, is an integer that a float holds. -/
theorem verifyWebhookSignature_declared (py : Python) (hmac : Bytes → Bytes → Bytes)
    (settings : WebhookSettings) (now : ℚ) (r : AuthRequest) :
    Declared (verifyWebhookSignature py hmac settings now r) ↔ Checkable py settings now r := by
  unfold verifyWebhookSignature Checkable
  cases hrequire : settings.requireWebhookSignature with
  | false => simp [Declared]
  | true =>
    simp only [Bool.not_true, Bool.false_eq_true, if_false, true_imp_iff]
    split_ifs with hsecret htwilio hsendgrid htimestamp
    · simp [Declared, hsecret]
    · simp only [verifyTwilioSignature_declared, hsecret, htwilio, ne_eq, not_false_eq_true, true_imp_iff,
        false_imp_iff, and_true]
    · have hnone : py.intOfText [] = none := rfl
      simp [Declared, htimestamp, hnone, not_not.mp htwilio]
    · simp only [verifySendgridSignature_declared, hsecret, not_not.mp htwilio, hsendgrid, ne_eq,
        not_false_eq_true, not_true_eq_false, true_imp_iff, false_imp_iff, true_and]
    · simp [Declared, not_not.mp hsendgrid, not_not.mp htwilio]

end Failures

/-- A signature header with a letter that is not ASCII. -/
def accentedSignature : AuthRequest := { url := [], body := [], xTwilioSignature := some ['é'] }

/-- A timestamp of 310 digits. -/
def hugeTimestamp : AuthRequest where
  url := []
  body := []
  xSendgridSignature := some "00".toList
  xRequestTimestamp := some ('1' :: List.replicate 309 '0')

theorem undeclared_accentedSignature : ¬ ∀ py hmac settings now r,
    Declared (verifyWebhookSignature py hmac settings now r) := by
  have hescapes : verifyWebhookSignature asciiPython shortDigest signingSettings 0 accentedSignature =
      .error .typeError := by decide +kernel
  intro h
  have hdeclared := h asciiPython shortDigest signingSettings 0 accentedSignature
  rw [hescapes] at hdeclared
  exact hdeclared

example : verifyWebhookSignature asciiPython shortDigest signingSettings 0 hugeTimestamp = .error .overflow := by
  decide +kernel

end LoanAgent
