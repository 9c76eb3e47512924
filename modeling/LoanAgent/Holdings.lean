import LoanAgent.Integrity

/-! What a process has in hand. A draft names an application that was found, an ack
one that was answered for, and a run holds documents that it has read; none of
these is ever deleted. Proved: in every reachable state they are there, and the
application of a draft or an ack is the borrower's. -/

namespace LoanAgent

variable {py : Python} {settings : Settings} {s s' : Store} {l l' : Proc py} {a : Action py}
  {db db' : Database} {borrower : Text}

/-- The applications and documents that a process has in hand are there. -/
def Proc.Serves (db : Database) : Proc py → Prop
  | .request r (.commit draft) => draft.isNew = false → db.HasBorrower draft.application.id (r.borrower py)
  | .request r (.respond ack) => db.HasBorrower ack.applicationId (r.borrower py)
  | .run σ (.parse docs) => ∀ d ∈ docs, db.HasDocument σ.applicationId d.id
  | .run σ (.messages r) | .run σ (.texts r _) => ∀ t ∈ r.rawTexts, db.HasDocument σ.applicationId t.1
  | _ => True

theorem Proc.Serves.mono (h : db.Extends db') (hl : l.Serves db) : l.Serves db' := by
  unfold Proc.Serves at hl ⊢
  split at hl
  · exact fun hnew => h.hasBorrower (hl hnew)
  · exact h.hasBorrower hl
  · exact fun d hd => h.hasDocument (hl d hd)
  · exact fun t ht => h.hasDocument (hl t ht)
  · exact fun t ht => h.hasDocument (hl t ht)
  · trivial

theorem hasBorrower_replayAck {key : Text} {ack : WebhookAck} (h : replayAck db key borrower = some ack) :
    db.HasBorrower ack.applicationId borrower := by
  simp only [replayAck, Option.bind_eq_some_iff] at h
  obtain ⟨m, -, x, hx, hack⟩ := h
  split_ifs at hack with hb
  cases hack
  exact ⟨x, List.mem_of_find?_eq_some hx, Database.application_id hx, not_not.mp hb⟩

/-- The application of a message that was committed. -/
theorem hasBorrower_commitDraft {r : Request} {draft : Draft}
    (hjust : (.request r (.commit draft) : Proc py).Justified)
    (hl : (.request r (.commit draft) : Proc py).Serves db) (h : commitDraft draft db = .ok db') :
    db'.HasBorrower draft.application.id (r.borrower py) := by
  obtain ⟨draws, db₀, hdraft⟩ := hjust
  obtain ⟨-, rfl⟩ := commitDraft_ok h
  cases hnew : draft.isNew with
  | false =>
    obtain ⟨x, hx, hid, hb⟩ := hl hnew
    exact ⟨x, by simpa using hx, hid, hb⟩
  | true => exact ⟨draft.application, by simp, rfl, hdraft.borrower⟩

theorem Transition.serves (h : Transition settings s l a s' l') (hjust : l.Justified) (hl : l.Serves s.db) :
    l'.Serves s'.db := by
  have hext := h.extends.db
  cases h with
  | evict | forgotten => exact hl
  | drafted _ h =>
    have hdraft := draftMessage_ok h
    exact fun hnew => ⟨_, hdraft.found hnew, rfl, hdraft.borrower⟩
  | committed h => exact hasBorrower_commitDraft hjust hl h
  | replayed h => exact hasBorrower_replayAck h
  | documents σ =>
    intro d hd
    obtain ⟨hmem, ha⟩ := List.mem_filter.mp hd
    exact ⟨d, hmem, rfl, by simpa using ha⟩
  | @parsed σ docs io result h =>
    obtain ⟨-, rfl⟩ := ingestDocuments_eq_ok.mp h
    intro t ht
    obtain ⟨d, hd, hid, -⟩ := mem_rawTexts.mp ht
    exact hid ▸ hl d hd
  | messages σ result => exact hl
  | delivered _ _ _ h => rcases h with rfl | rfl <;> trivial
  | _ => trivial

theorem serves_of_reaches {ok : Service py → ℕ → Action py → Prop} {c : Service py}
    (h : ServiceReaches py settings ok c) (p : ℕ) : (c.procs p).Serves c.shared.db := by
  refine ((h.assuming (I := fun c => ∀ p, (c.procs p).Justified) fun h => justified_of_reaches h).assertions
    (I := fun _ => True) (J := fun s l => l.Serves s.db) (R := fun s s' => s.db.Extends s'.db) trivial
    (fun p => ?_) ?_ fun _ _ _ hR hl => hl.mono hR).2 p
  · trivial
  · rintro c p a s' l' ⟨-, hjust⟩ - hl hstep
    have htrans := procStep_transition hstep
    exact ⟨trivial, htrans.serves (hjust p) hl, htrans.extends.db⟩

/-- Whose an application is does not change. -/
theorem hasBorrower_of_reaches {ok : Service py → ℕ → Action py → Prop} {c c' : Service py} {b : Uuid}
    (h : Interleave.Reaches (procStep settings) ok c c') (hb : c.shared.db.HasBorrower b borrower) :
    c'.shared.db.HasBorrower b borrower := by
  refine h.invariant (I := fun c' => c'.shared.db.HasBorrower b borrower) hb ?_
  intro c' p a s l hc _ hs
  exact (procStep_transition hs).extends.db.hasBorrower hc

end LoanAgent
