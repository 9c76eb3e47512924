import LoanAgent.Library.Interleave
import Mathlib.Data.List.Nodup
import Mathlib.Data.Set.Function

/-! Files that are written once, each through a temporary file beside it. A writer
puts the content into the temporary file call by call and then renames it; it may
stop behind any call, and other writers make theirs in between. Proved: where no
target is handed out twice and no target is a temporary file, every file is at any
time a whole content that was handed out, or a temporary file with the beginning of
one; and what a writer is done with stands whole under its name. -/

namespace WriteOnce

variable {P B : Type*} [DecidableEq P]

/-- The content of each file that is there. -/
abbrev Disk (P B : Type*) := P → Option (List B)

structure Writer (P B : Type*) where
  /-- The files that were handed out to it last. -/
  batch : List (P × List B) := []
  /-- Those of them that are not renamed yet. -/
  jobs : List (P × List B) := []
  /-- How much of the first job stands in its temporary file, once that was created. -/
  written : Option ℕ := none

inductive Call
  | create
  | append (n : ℕ)
  | rename

/-- A write at an offset. -/
def overlay (old : List B) (k : ℕ) (chunk : List B) : List B :=
  old.take k ++ chunk ++ old.drop (k + chunk.length)

/-- One call of a writer. -/
def call (temp : P → P) (disk : Disk P B) (w : Writer P B) (c : Call) : Option (Disk P B × Writer P B) :=
  match w.jobs, w.written, c with
  | (p, _) :: _, none, .create =>
    some (Function.update disk (temp p) (some []), { w with written := some 0 })
  | (p, b) :: _, some k, .append n =>
    if k + n ≤ b.length then (disk (temp p)).map fun old =>
      (Function.update disk (temp p) (some (overlay old k ((b.drop k).take n))),
        { w with written := some (k + n) })
    else none
  | (p, b) :: rest, some k, .rename =>
    if k = b.length then (disk (temp p)).map fun content =>
      (Function.update (Function.update disk (temp p) none) p (some content),
        { w with jobs := rest, written := none })
    else none
  | _, _, _ => none

/-- The disk, and what was handed out so far. -/
structure State (P B : Type*) where
  disk : Disk P B := fun _ => none
  begun : List (P × List B) := []

inductive Event (P B : Type*)
  | begin (jobs : List (P × List B))
  | call (c : Call)
  | crash

def step (temp : P → P) : Interleave.Step (State P B) (Writer P B) (Event P B) := fun s w e =>
  match e with
  | .begin jobs => if w.jobs = [] then some ({ s with begun := s.begun ++ jobs }, ⟨jobs, jobs, none⟩) else none
  | .call c => (call temp s.disk w c).map fun r => ({ s with disk := r.1 }, r.2)
  | .crash => some (s, {})

/-- Nothing is written and nothing handed out. -/
def initial (P B : Type*) : Interleave.Config (State P B) (Writer P B) := ⟨{}, fun _ => {}⟩

/-- Only targets are handed out, and none that was handed out before. -/
def fresh (T : Set P) (c : Interleave.Config (State P B) (Writer P B)) (_ : ℕ) : Event P B → Prop
  | .begin jobs => ((c.shared.begun ++ jobs).map (·.1)).Nodup ∧ ∀ f ∈ jobs, f.1 ∈ T
  | _ => True

/-! ### One call -/

variable {temp : P → P} {T : Set P} {disk disk' : Disk P B} {w w' : Writer P B} {s s' : State P B}

/-- A call creates, fills or renames the temporary file of the first job. -/
theorem call_cases {c : Call} (h : call temp disk w c = some (disk', w')) :
    ∃ f rest, w.jobs = f :: rest ∧
      ((w.written = none ∧ disk' = Function.update disk (temp f.1) (some []) ∧
        w' = { w with written := some 0 }) ∨
      (∃ k n old, w.written = some k ∧ disk (temp f.1) = some old ∧ k + n ≤ f.2.length ∧
        disk' = Function.update disk (temp f.1) (some (overlay old k ((f.2.drop k).take n))) ∧
        w' = { w with written := some (k + n) }) ∨
      ∃ content, w.written = some f.2.length ∧ disk (temp f.1) = some content ∧
        disk' = Function.update (Function.update disk (temp f.1) none) f.1 (some content) ∧
        w' = { w with jobs := rest, written := none }) := by
  unfold call at h
  split at h
  next p b rest hjobs hwritten =>
    cases h
    exact ⟨(p, b), rest, hjobs, .inl ⟨hwritten, rfl, rfl⟩⟩
  next p b rest k n hjobs hwritten =>
    split_ifs at h with hle
    obtain ⟨old, hold, heq⟩ := Option.map_eq_some_iff.mp h
    cases heq
    exact ⟨(p, b), rest, hjobs, .inr (.inl ⟨k, n, old, hwritten, hold, hle, rfl, rfl⟩)⟩
  next p b rest k hjobs hwritten =>
    split_ifs at h with hk
    obtain ⟨content, hcontent, heq⟩ := Option.map_eq_some_iff.mp h
    cases heq
    exact ⟨(p, b), rest, hjobs, .inr (.inr ⟨content, hk ▸ hwritten, hcontent, rfl, rfl⟩)⟩
  · cases h

theorem call_batch {c : Call} (h : call temp disk w c = some (disk', w')) : w'.batch = w.batch := by
  obtain ⟨f, rest, -, hcases⟩ := call_cases h
  rcases hcases with ⟨-, -, rfl⟩ | ⟨_, _, _, -, -, -, -, rfl⟩ | ⟨_, -, -, -, rfl⟩ <;> rfl

/-- The next part of a content, put behind the first one. -/
theorem overlay_take (b : List B) (k n : ℕ) :
    overlay (b.take k) k ((b.drop k).take n) = b.take (k + n) := by
  have hlong : (b.take k).length ≤ k := List.length_take_le k b
  have hbehind : (b.take k).drop (k + ((b.drop k).take n).length) = [] :=
    List.drop_of_length_le (hlong.trans (Nat.le_add_right _ _))
  rw [overlay, List.take_of_length_le hlong, hbehind, List.append_nil, List.take_add]

/-! ### What holds of every state -/

/-- What a writer is done with is there, and its first job has come as far as it knows. -/
structure Writer.Sound (temp : P → P) (s : State P B) (w : Writer P B) : Prop where
  jobs : ∀ f ∈ w.jobs, f ∈ w.batch
  batch : ∀ f ∈ w.batch, f ∈ s.begun
  nodup : w.jobs.Nodup
  done : ∀ f ∈ w.batch, f ∉ w.jobs → s.disk f.1 = some f.2
  written : ∀ f rest k, w.jobs = f :: rest → w.written = some k →
    s.disk (temp f.1) = some (f.2.take k) ∧ k ≤ f.2.length

/-- Every file is whole, or a temporary file with the beginning of a content. -/
structure State.Sound (temp : P → P) (T : Set P) (s : State P B) : Prop where
  nodup : (s.begun.map (·.1)).Nodup
  targets : ∀ f ∈ s.begun, f.1 ∈ T
  whole : ∀ p b, s.disk p = some b → (p, b) ∈ s.begun ∨ ∃ f ∈ s.begun, p = temp f.1 ∧ b <+: f.2

omit [DecidableEq P] in
theorem State.Sound.eq_of_target (hs : s.Sound temp T) {f g : P × List B} (hf : f ∈ s.begun) (hg : g ∈ s.begun)
    (h : f.1 = g.1) : f = g := List.inj_on_of_nodup_map hs.nodup hf hg h

section Calls
variable (hinj : Set.InjOn temp T) (hapart : ∀ p ∈ T, temp p ∉ T) (hs : s.Sound temp T) (hw : w.Sound temp s)
  {c : Call} (hcall : call temp s.disk w c = some (disk', w'))

include hapart hs hw hcall

/-- What stands whole under its name stays. -/
theorem call_target {g : P × List B} (hg : g ∈ s.begun) (hdisk : s.disk g.1 = some g.2) :
    disk' g.1 = some g.2 := by
  obtain ⟨f, rest, hjobs, hcases⟩ := call_cases hcall
  have hf : f ∈ s.begun := hw.batch f (hw.jobs f (hjobs ▸ List.mem_cons_self))
  have htemp : g.1 ≠ temp f.1 := fun h => hapart f.1 (hs.targets f hf) (h ▸ hs.targets g hg)
  rcases hcases with ⟨-, rfl, -⟩ | ⟨k, n, old, -, -, -, rfl, -⟩ | ⟨content, hk, hcontent, rfl, -⟩
  · rwa [Function.update_of_ne htemp]
  · rwa [Function.update_of_ne htemp]
  · by_cases hfg : g.1 = f.1
    · obtain rfl := hs.eq_of_target hg hf hfg
      rw [Function.update_self, ← hcontent, (hw.written g rest _ hjobs hk).1, List.take_length]
    · rwa [Function.update_of_ne hfg, Function.update_of_ne htemp]

include hinj

/-- The temporary file of another job is left alone. -/
theorem call_temp {g : P × List B} (hg : g ∈ s.begun) (hother : g ∉ w.jobs) :
    disk' (temp g.1) = s.disk (temp g.1) := by
  obtain ⟨f, rest, hjobs, hcases⟩ := call_cases hcall
  have hmem : f ∈ w.jobs := hjobs ▸ List.mem_cons_self
  have hf : f ∈ s.begun := hw.batch f (hw.jobs f hmem)
  have hne : temp g.1 ≠ temp f.1 := fun h => by
    have heq := hs.eq_of_target hg hf (hinj (hs.targets g hg) (hs.targets f hf) h)
    exact hother (heq ▸ hmem)
  have htarget : temp g.1 ≠ f.1 := fun h => hapart g.1 (hs.targets g hg) (h ▸ hs.targets f hf)
  rcases hcases with ⟨-, rfl, -⟩ | ⟨k, n, old, -, -, -, rfl, -⟩ | ⟨content, -, -, rfl, -⟩
  · exact Function.update_of_ne hne _ _
  · exact Function.update_of_ne hne _ _
  · rw [Function.update_of_ne htarget, Function.update_of_ne hne]

/-- A call of one writer leaves what the others know true. -/
theorem Writer.Sound.stable {v : Writer P B} (hv : v.Sound temp s) (hdisjoint : ∀ f ∈ v.jobs, f ∉ w.jobs) :
    v.Sound temp { s with disk := disk' } where
  jobs := hv.jobs
  batch := hv.batch
  nodup := hv.nodup
  done := fun f hf hjobs => call_target hapart hs hw hcall (hv.batch f hf) (hv.done f hf hjobs)
  written := fun f rest k hjobs hk => by
    have hmem : f ∈ v.jobs := hjobs ▸ List.mem_cons_self
    dsimp only
    rw [call_temp hinj hapart hs hw hcall (hv.batch f (hv.jobs f hmem)) (hdisjoint f hmem)]
    exact hv.written f rest k hjobs hk

omit hinj

theorem Writer.Sound.call : w'.Sound temp { s with disk := disk' } := by
  have hstays : ∀ f ∈ w.batch, f ∉ w.jobs → disk' f.1 = some f.2 := fun f hf hjobs =>
    call_target hapart hs hw hcall (hw.batch f hf) (hw.done f hf hjobs)
  obtain ⟨f, rest, hjobs, hcases⟩ := call_cases hcall
  rcases hcases with ⟨-, rfl, rfl⟩ | ⟨k, n, old, hk, hold, hle, rfl, rfl⟩ | ⟨content, hk, hcontent, rfl, rfl⟩
  · refine ⟨hw.jobs, hw.batch, hw.nodup, hstays, ?_⟩
    rintro g rest' _ hg ⟨⟩
    obtain ⟨rfl, -⟩ := List.cons.inj (hjobs.symm.trans hg)
    exact ⟨Function.update_self .., Nat.zero_le _⟩
  · refine ⟨hw.jobs, hw.batch, hw.nodup, hstays, ?_⟩
    rintro g rest' _ hg ⟨⟩
    obtain ⟨rfl, -⟩ := List.cons.inj (hjobs.symm.trans hg)
    have htaken := hold.symm.trans (hw.written f rest k hjobs hk).1
    refine ⟨?_, hle⟩
    dsimp only
    rw [Function.update_self, Option.some.inj htaken, overlay_take]
  · refine ⟨fun g hg => hw.jobs g (hjobs ▸ List.mem_cons_of_mem _ hg), hw.batch,
      (List.nodup_cons.mp (hjobs ▸ hw.nodup)).2, fun g hg hrest => ?_, fun _ _ _ _ hnone => by cases hnone⟩
    by_cases hgf : g = f
    · subst hgf
      have hwhole := hcontent.symm.trans (hw.written g rest _ hjobs hk).1
      dsimp only
      rw [Function.update_self, hwhole, List.take_length]
    · refine hstays g hg fun hmem => ?_
      rw [hjobs] at hmem
      exact (List.mem_cons.mp hmem).elim hgf hrest

omit hapart in
theorem State.Sound.call : State.Sound temp T { s with disk := disk' } := by
  refine ⟨hs.nodup, hs.targets, fun p b hp => ?_⟩
  dsimp only at hp ⊢
  obtain ⟨f, rest, hjobs, hcases⟩ := call_cases hcall
  have hf : f ∈ s.begun := hw.batch f (hw.jobs f (hjobs ▸ List.mem_cons_self))
  rcases hcases with ⟨-, rfl, -⟩ | ⟨k, n, old, hk, hold, hle, rfl, -⟩ | ⟨content, hk, hcontent, rfl, -⟩
  · by_cases hpf : p = temp f.1
    · subst hpf
      rw [Function.update_self] at hp
      exact .inr ⟨f, hf, rfl, Option.some.inj hp ▸ List.nil_prefix⟩
    · rw [Function.update_of_ne hpf] at hp
      exact hs.whole p b hp
  · by_cases hpf : p = temp f.1
    · subst hpf
      have htaken := hold.symm.trans (hw.written f rest k hjobs hk).1
      rw [Function.update_self, Option.some.inj htaken, overlay_take] at hp
      exact .inr ⟨f, hf, rfl, Option.some.inj hp ▸ List.take_prefix _ _⟩
    · rw [Function.update_of_ne hpf] at hp
      exact hs.whole p b hp
  · by_cases hpf : p = f.1
    · subst hpf
      have hwhole := hcontent.symm.trans (hw.written f rest _ hjobs hk).1
      rw [Function.update_self, hwhole, List.take_length] at hp
      exact .inl (Option.some.inj hp ▸ hf)
    · rw [Function.update_of_ne hpf] at hp
      by_cases htemp : p = temp f.1
      · subst htemp
        rw [Function.update_self] at hp
        cases hp
      · rw [Function.update_of_ne htemp] at hp
        exact hs.whole p b hp

end Calls

/-! ### Every run -/

/-- What holds of the disk and of all writers. -/
structure Sound (temp : P → P) (T : Set P) (c : Interleave.Config (State P B) (Writer P B)) : Prop where
  state : c.shared.Sound temp T
  writers : ∀ p, (c.procs p).Sound temp c.shared
  disjoint : ∀ p q, p ≠ q → ∀ f ∈ (c.procs p).jobs, f ∉ (c.procs q).jobs

omit [DecidableEq P] in
/-- One writer moves, and what the others know stays true. -/
theorem Sound.update {c : Interleave.Config (State P B) (Writer P B)} {p : ℕ} (h : Sound temp T c)
    (hs' : s'.Sound temp T) (hw' : w'.Sound temp s') (hothers : ∀ q, q ≠ p → (c.procs q).Sound temp s')
    (hjobs : ∀ q, q ≠ p → ∀ f ∈ w'.jobs, f ∉ (c.procs q).jobs) :
    Sound temp T ⟨s', Function.update c.procs p w'⟩ := by
  refine ⟨hs', fun q => ?_, fun q r hqr f hf => ?_⟩
  · by_cases hq : q = p
    · subst hq
      simpa using hw'
    · simpa [Function.update_of_ne hq] using hothers q hq
  · by_cases hq : q = p
    · subst hq
      simp only [Function.update_self, Function.update_of_ne hqr.symm] at hf ⊢
      exact hjobs r hqr.symm f hf
    · by_cases hr : r = p
      · subst hr
        simp only [Function.update_self, Function.update_of_ne hq] at hf ⊢
        exact fun hmem => hjobs q hq f hmem hf
      · simp only [Function.update_of_ne hq, Function.update_of_ne hr] at hf ⊢
        exact h.disjoint q r hqr f hf

/-- Whatever the writers do and wherever they stop. -/
theorem sound_of_reaches (hinj : Set.InjOn temp T) (hapart : ∀ p ∈ T, temp p ∉ T)
    {c : Interleave.Config (State P B) (Writer P B)}
    (h : Interleave.Reaches (step temp) (fresh T) (initial P B) c) : Sound temp T c := by
  have hnil : ∀ s : State P B, ({} : Writer P B).Sound temp s := fun s =>
    ⟨fun _ hf => hf, fun _ hf => absurd hf List.not_mem_nil, List.nodup_nil,
      fun _ hf => absurd hf List.not_mem_nil, fun _ _ _ hjobs => by cases hjobs⟩
  have h0 : Sound temp T (initial P B) := by
    refine ⟨⟨List.nodup_nil, fun _ hf => absurd hf List.not_mem_nil, fun _ _ hp => by cases hp⟩,
      fun _ => hnil _, fun _ _ _ _ hf => absurd hf List.not_mem_nil⟩
  refine h.invariant h0 ?_
  intro c p e s' w' hc hfresh hstep
  have hw := hc.writers p
  have hs := hc.state
  cases e with
  | begin jobs =>
    simp only [step] at hstep
    split_ifs at hstep with hidle
    cases hstep
    obtain ⟨hnodup, htargets⟩ := hfresh
    have hsplit := List.nodup_append.mp (List.map_append ▸ hnodup)
    refine hc.update ⟨hnodup, fun f hf => ?_, fun q b hq => ?_⟩ ⟨fun _ hf => hf, fun f hf => ?_, ?_, ?_, ?_⟩
      (fun q _ => ?_) fun q _ f hf hmem => ?_
    · exact (List.mem_append.mp hf).elim (hs.targets f) (htargets f)
    · exact (hs.whole q b hq).imp (List.mem_append_left _) fun ⟨f, hf, hrest⟩ =>
        ⟨f, List.mem_append_left _ hf, hrest⟩
    · exact List.mem_append_right _ hf
    · exact hsplit.2.1.of_map _
    · exact fun f hf hnot => absurd hf hnot
    · exact fun _ _ _ _ hnone => by cases hnone
    · have hq := hc.writers q
      exact { hq with batch := fun f hf => List.mem_append_left _ (hq.batch f hf) }
    · have hbegun := (hc.writers q).batch f ((hc.writers q).jobs f hmem)
      exact hsplit.2.2 _ (List.mem_map_of_mem hbegun) _ (List.mem_map_of_mem hf) rfl
  | call k =>
    obtain ⟨⟨disk', v⟩, hcall, heq⟩ := Option.map_eq_some_iff.mp hstep
    cases heq
    have hsub : ∀ f ∈ v.jobs, f ∈ (c.procs p).jobs := by
      obtain ⟨f, rest, hjobs, hcases⟩ := call_cases hcall
      rcases hcases with ⟨-, -, rfl⟩ | ⟨_, _, _, -, -, -, -, rfl⟩ | ⟨_, -, -, -, rfl⟩
      · exact fun f hf => hf
      · exact fun f hf => hf
      · exact fun f hf => hjobs ▸ List.mem_cons_of_mem _ hf
    exact hc.update (hs.call hw hcall) (hw.call hapart hs hcall)
      (fun q hq => Writer.Sound.stable hinj hapart hs hw hcall (hc.writers q) (hc.disjoint q p hq))
      fun q hq f hf => hc.disjoint p q hq.symm f (hsub f hf)
  | crash =>
    cases hstep
    exact hc.update hs (hnil _) (fun q _ => hc.writers q) fun _ _ _ hf => absurd hf List.not_mem_nil

end WriteOnce
