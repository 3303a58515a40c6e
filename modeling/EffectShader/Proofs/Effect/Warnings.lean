import EffectShader.Effect.Build
import EffectShader.Effect.Session

/-!
# Lenient and strict sessions

A session counts warnings as errors or it does not.  A step runs alike in both
until something is reported: then the lenient session has recorded a warning, and
the strict one an error that no later step forgets.
-/

namespace EffectShader

namespace Session

def IsWarned (s : Session) : Prop :=
  Diagnostics.warnings s.collector.diagnostics ≠ []

/-- A recorded diagnostic counts as an error. -/
def IsDoomed (s : Session) : Prop :=
  s.collector.fatal ≠ none

/-- Warnings do not count as errors, and there was neither a warning nor an error. -/
structure IsCalm (s : Session) : Prop where
  lenient : s.collector.throwOnWarning = false
  unwarned : Diagnostics.warnings s.collector.diagnostics = []
  undoomed : s.collector.fatal = none

/-- The session with warnings that count as errors. -/
def strict (s : Session) : Session :=
  { s with collector := { s.collector with throwOnWarning := true } }

structure IsNeutral (f : Session -> Session) : Prop where
  diagnostics : forall s, (f s).collector.diagnostics = s.collector.diagnostics
  fatal : forall s, (f s).collector.fatal = s.collector.fatal
  throwOnWarning : forall s, (f s).collector.throwOnWarning = s.collector.throwOnWarning
  strict : forall s, f s.strict = (f s).strict

theorem IsNeutral.isWarned {f : Session -> Session} (h : IsNeutral f) {s : Session}
    (hs : s.IsWarned) : (f s).IsWarned := by
  unfold IsWarned
  rw [h.diagnostics]
  exact hs

theorem IsNeutral.isDoomed {f : Session -> Session} (h : IsNeutral f) {s : Session}
    (hs : s.IsDoomed) : (f s).IsDoomed := by
  unfold IsDoomed
  rw [h.fatal]
  exact hs

theorem IsNeutral.isCalm {f : Session -> Session} (h : IsNeutral f) {s : Session}
    (hs : s.IsCalm) : (f s).IsCalm := by
  refine ⟨?_, ?_, ?_⟩
  · rw [h.throwOnWarning]
    exact hs.lenient
  · rw [h.diagnostics]
    exact hs.unwarned
  · rw [h.fatal]
    exact hs.undoomed

end Session

/-!
# Reporting

Reported warnings are recorded, and the first one dooms a session in which
warnings count as errors.
-/

namespace Collector

theorem stamp_severity (c : Collector) (d : Diagnostic) : (c.stamp d).severity = d.severity := rfl

theorem diagnostics_reportAll (c : Collector) (ds : List Diagnostic) :
    exists es, (c.reportAll ds).diagnostics = c.diagnostics ++ es ∧
      es.map Diagnostic.severity = ds.map Diagnostic.severity := by
  induction ds generalizing c with
  | nil => exact ⟨[], by simp [reportAll], rfl⟩
  | cons d ds ih =>
      rcases ih (c.report d) with ⟨es, hes, hseverity⟩
      refine ⟨c.stamp d :: es, ?_, ?_⟩
      · rw [show c.reportAll (d :: ds) = (c.report d).reportAll ds from rfl, hes]
        simp [report]
      · simp [stamp_severity, hseverity]

theorem fatal_reportAll {c : Collector} (h : c.fatal ≠ none) (ds : List Diagnostic) :
    (c.reportAll ds).fatal ≠ none := by
  induction ds generalizing c with
  | nil => exact h
  | cons d ds ih =>
      apply ih
      unfold report
      cases hfatal : c.fatal with
      | none => exact absurd hfatal h
      | some f => simp

theorem fatal_reportAll_strict {c : Collector} (h : c.throwOnWarning = true)
    {ds : List Diagnostic} (hne : ds ≠ []) : (c.reportAll ds).fatal ≠ none := by
  cases ds with
  | nil => exact absurd rfl hne
  | cons d ds =>
      have hreport : (c.report d).fatal ≠ none := by
        unfold report
        cases hfatal : c.fatal with
        | none => simp [h]
        | some f => simp
      exact fatal_reportAll hreport ds

end Collector

namespace Diagnostics

def AreWarnings (ds : List Diagnostic) : Prop :=
  forall d, d ∈ ds -> d.severity = .warning

theorem AreWarnings.append {ds es : List Diagnostic} (hds : AreWarnings ds)
    (hes : AreWarnings es) : AreWarnings (ds ++ es) := by
  intro d hd
  rcases List.mem_append.mp hd with hd | hd
  · exact hds d hd
  · exact hes d hd

theorem areWarnings_singleton {d : Diagnostic} (h : d.severity = .warning) : AreWarnings [d] := by
  intro e he
  rw [List.mem_singleton.mp he]
  exact h

end Diagnostics

/-!
# Steps that agree

A step agrees with itself if the lenient and the strict run of it go hand in hand
until there is a warning or a failure.
-/

namespace BuildStep

variable {α β : Type}

/-- What a step answers and what it leaves of the session. -/
def after (x : BuildStep α) (s : Session) : Except Diagnostic α × Session :=
  x.run.run s

def Failed (r : Except Diagnostic α × Session) : Prop :=
  exists e, r.1 = .error e

/-- The lenient and the strict run of a step: both succeeded alike without a warning, or the lenient
one failed or warned and the strict one failed or is doomed. -/
inductive Together (r r' : Except Diagnostic α × Session) : Prop where
  | alike {a : α} {s : Session} :
      s.IsCalm -> r = (.ok a, s) -> r' = (.ok a, s.strict) -> Together r r'
  | apart : (Failed r ∨ r.2.IsWarned) -> (Failed r' ∨ r'.2.IsDoomed) -> Together r r'

/-- Warnings and errors stay recorded, and from a calm session both runs stay together. -/
structure Agrees (x : BuildStep α) : Prop where
  isWarned : forall s : Session, s.IsWarned -> (x.after s).2.IsWarned
  isDoomed : forall s : Session, s.IsDoomed -> (x.after s).2.IsDoomed
  together : forall s : Session, s.IsCalm -> Together (x.after s) (x.after s.strict)

theorem after_bind (x : BuildStep α) (f : α -> BuildStep β) (s : Session) :
    (x >>= f).after s =
      match x.after s with
      | (.ok a, t) => (f a).after t
      | (.error e, t) => (.error e, t) := by
  show (ExceptT.bindCont f (x.run.run s).1).run (x.run.run s).2 = _
  unfold after
  rcases x.run.run s with ⟨r, t⟩
  cases r <;> rfl

theorem exists_of_bind {x : BuildStep α} {f : α -> BuildStep β} {s t : Session} {b : β}
    (h : (x >>= f).after s = (.ok b, t)) :
    exists a s', x.after s = (.ok a, s') ∧ (f a).after s' = (.ok b, t) := by
  rw [after_bind] at h
  rcases hx : x.after s with ⟨r, s'⟩
  rw [hx] at h
  cases r with
  | error e => cases h
  | ok a => exact ⟨a, s', rfl, h⟩

theorem failed_bind {x : BuildStep α} {s : Session} (h : Failed (x.after s))
    (f : α -> BuildStep β) : Failed ((x >>= f).after s) := by
  rcases h with ⟨e, he⟩
  refine ⟨e, ?_⟩
  rw [after_bind]
  rcases hx : x.after s with ⟨r, t⟩
  rw [hx] at he
  cases he
  rfl

theorem agrees_pure (a : α) : Agrees (pure a : BuildStep α) :=
  ⟨fun _ h => h, fun _ h => h, fun _ h => Together.alike h rfl rfl⟩

theorem Agrees.keeps {P : Session -> Prop} {x : BuildStep α} {f : α -> BuildStep β}
    (hx : forall s, P s -> P (x.after s).2) (hf : forall a s, P s -> P ((f a).after s).2)
    (s : Session) (hs : P s) : P ((x >>= f).after s).2 := by
  have hmiddle := hx s hs
  rw [after_bind]
  rcases hrun : x.after s with ⟨r, t⟩
  rw [hrun] at hmiddle
  cases r with
  | error e => exact hmiddle
  | ok a => exact hf a t hmiddle

theorem Agrees.bind {x : BuildStep α} {f : α -> BuildStep β} (hx : Agrees x)
    (hf : forall a, Agrees (f a)) : Agrees (x >>= f) := by
  refine ⟨Agrees.keeps hx.isWarned fun a => (hf a).isWarned,
    Agrees.keeps hx.isDoomed fun a => (hf a).isDoomed, ?_⟩
  intro s hs
  rcases hx.together s hs with ⟨hcalm, hr, hr'⟩ | ⟨hr, hr'⟩
  · rename_i a t
    have hnext := (hf a).together t hcalm
    rw [after_bind, after_bind, hr, hr']
    exact hnext
  · -- What was recorded in the first step is not lost in the second.
    apply Together.apart
    · rcases hr with hfailed | hwarned
      · exact Or.inl (failed_bind hfailed f)
      · rw [after_bind]
        rcases hrun : x.after s with ⟨r, t⟩
        rw [hrun] at hwarned
        cases r with
        | error e => exact Or.inl ⟨e, rfl⟩
        | ok a => exact Or.inr ((hf a).isWarned t hwarned)
    · rcases hr' with hfailed | hdoomed
      · exact Or.inl (failed_bind hfailed f)
      · rw [after_bind]
        rcases hrun : x.after s.strict with ⟨r, t⟩
        rw [hrun] at hdoomed
        cases r with
        | error e => exact Or.inl ⟨e, rfl⟩
        | ok a => exact Or.inr ((hf a).isDoomed t hdoomed)

theorem Agrees.mapM {f : α -> BuildStep β} (hf : forall a, Agrees (f a)) (as : List α) :
    Agrees (as.mapM f) := by
  induction as with
  | nil => exact agrees_pure []
  | cons a as ih =>
      rw [List.mapM_cons]
      exact (hf a).bind fun b => ih.bind fun bs => agrees_pure (b :: bs)

theorem agrees_get {f : Session -> BuildStep α} (hstrict : forall s, f s.strict = f s)
    (hf : forall s, Agrees (f s)) : Agrees (get >>= f) := by
  refine ⟨fun s hs => (hf s).isWarned s hs, fun s hs => (hf s).isDoomed s hs, ?_⟩
  intro s hs
  have hnext := (hf s).together s hs
  show Together ((f s).after s) ((f s.strict).after s.strict)
  rw [hstrict]
  exact hnext

theorem agrees_modify {f : Session -> Session} (hf : Session.IsNeutral f) :
    Agrees (modify f : BuildStep Unit) := by
  refine ⟨fun s => hf.isWarned, fun s => hf.isDoomed, ?_⟩
  intro s hs
  exact Together.alike (hf.isCalm hs) rfl (congrArg (Prod.mk _) (hf.strict s))

theorem agrees_update {u : Session -> Session} {f : Session -> BuildStep α}
    (hu : Session.IsNeutral u) (hstrict : forall s, f s.strict = f s)
    (hf : forall s, Agrees (f s)) :
    Agrees (get >>= fun s => set (u s) >>= fun _ => f s) := by
  refine ⟨fun s hs => (hf s).isWarned (u s) (hu.isWarned hs),
    fun s hs => (hf s).isDoomed (u s) (hu.isDoomed hs), ?_⟩
  intro s hs
  have hnext := (hf s).together (u s) (hu.isCalm hs)
  show Together ((f s).after (u s)) ((f s.strict).after (u s.strict))
  rw [hstrict, hu.strict]
  exact hnext

/-!
# The steps of every build
-/

theorem warnings_fail (c : Collector) (e : Failure) (h : Diagnostics.warnings c.diagnostics ≠ []) :
    Diagnostics.warnings (c.fail e).2.diagnostics ≠ [] := by
  show Diagnostics.warnings (c.diagnostics ++ [c.stamp e.toDiagnostic]) ≠ []
  unfold Diagnostics.warnings at h ⊢
  rw [List.filter_append]
  exact List.append_ne_nil_of_left_ne_nil h _

theorem agrees_fail (e : Failure) : Agrees (fail e : BuildStep α) :=
  ⟨fun s hs => warnings_fail s.collector e hs, fun _ hs => hs, fun _ _ =>
    Together.apart (Or.inl ⟨_, rfl⟩) (Or.inl ⟨_, rfl⟩)⟩

theorem agrees_failAt (e : Failure) (code : Text) (lines : LineMap) :
    Agrees (failAt e code lines : BuildStep α) := by
  unfold failAt
  dsimp only
  split
  · exact agrees_fail _
  · exact agrees_fail _

theorem agrees_failAt_bind (e : Failure) (code : Text) (lines : LineMap) (f : α -> BuildStep β) :
    Agrees (failAt e code lines >>= f) := by
  have hfailed (s : Session) : exists d, (failAt e code lines >>= f).after s =
      (.error d, ((failAt e code lines : BuildStep α).after s).2) := by
    unfold failAt
    dsimp only
    split <;> exact ⟨_, rfl⟩
  refine ⟨?_, ?_, ?_⟩
  · intro s hs
    rcases hfailed s with ⟨d, hd⟩
    rw [hd]
    exact (agrees_failAt e code lines).isWarned s hs
  · intro s hs
    rcases hfailed s with ⟨d, hd⟩
    rw [hd]
    exact (agrees_failAt e code lines).isDoomed s hs
  · intro s _
    rcases hfailed s with ⟨d, hd⟩
    rcases hfailed s.strict with ⟨d', hd'⟩
    exact Together.apart (Or.inl ⟨d, congrArg Prod.fst hd⟩) (Or.inl ⟨d', congrArg Prod.fst hd'⟩)

theorem agrees_orFail (r : Except Failure α) : Agrees (orFail r) := by
  cases r with
  | ok a => exact agrees_pure a
  | error e => exact agrees_fail e

theorem agrees_orFailAt (code : Text) (lines : LineMap) (r : Except Failure α) :
    Agrees (orFailAt code lines r) := by
  cases r with
  | ok a => exact agrees_pure a
  | error e => exact agrees_failAt e code lines

theorem agrees_report {ds : List Diagnostic} (hds : Diagnostics.AreWarnings ds) :
    Agrees (report ds) := by
  refine ⟨?_, fun s hs => Collector.fatal_reportAll hs ds, ?_⟩
  · intro s hs
    rcases s.collector.diagnostics_reportAll ds with ⟨es, hes, _⟩
    show (s.collector.reportAll ds).diagnostics.filter _ ≠ []
    rw [hes, List.filter_append]
    exact List.append_ne_nil_of_left_ne_nil hs _
  · intro s hs
    by_cases hne : ds = []
    · subst hne
      exact Together.alike hs rfl rfl
    · rcases s.collector.diagnostics_reportAll ds with ⟨es, hes, hseverity⟩
      rcases List.exists_mem_of_ne_nil ds hne with ⟨d, hd⟩
      have hmem : Severity.warning ∈ es.map Diagnostic.severity := by
        rw [hseverity]
        exact List.mem_map.mpr ⟨d, hd, hds d hd⟩
      rcases List.mem_map.mp hmem with ⟨e, he, hwarning⟩
      apply Together.apart
      · right
        show (s.collector.reportAll ds).diagnostics.filter _ ≠ []
        rw [hes, List.filter_append]
        apply List.append_ne_nil_of_right_ne_nil
        exact List.ne_nil_of_mem (List.mem_filter.mpr ⟨he, by simp [hwarning]⟩)
      · exact Or.inr (Collector.fatal_reportAll_strict rfl hne)

theorem agrees_setShader (name : Text) : Agrees (setShader name) :=
  agrees_modify ⟨fun _ => rfl, fun _ => rfl, fun _ => rfl, fun _ => rfl⟩

theorem agrees_debug (message : Text) (attributes : List (Text × Text)) :
    Agrees (debug message attributes) :=
  agrees_modify ⟨fun _ => rfl, fun _ => rfl, fun _ => rfl, fun _ => rfl⟩

theorem after_settle (s : Session) :
    settle.after s =
      match s.collector.fatal with
      | some d => (.error d, s)
      | none => (.ok (), s) := by
  unfold settle
  rw [after_bind]
  show BuildStep.after (match s.collector.fatal with
    | some d => throw d
    | none => return ()) s = _
  cases s.collector.fatal <;> rfl

theorem agrees_settle : Agrees settle := by
  have hsession (s : Session) : (settle.after s).2 = s := by
    rw [after_settle]
    cases s.collector.fatal <;> rfl
  refine ⟨?_, ?_, ?_⟩
  · intro s hs
    rw [hsession]
    exact hs
  · intro s hs
    rw [hsession]
    exact hs
  · intro s hs
    have hstrict : s.strict.collector.fatal = none := hs.undoomed
    exact Together.alike hs (by rw [after_settle, hs.undoomed]) (by rw [after_settle, hstrict])

end BuildStep

/-!
# Warnings that count as errors

A build that treats warnings as errors takes the same steps as one that does not,
up to the first warning.  From there on it may stop at any point where it looks at
the diagnostics, and it looks at them once more after the last step that can warn.
It therefore succeeds exactly if the other build succeeds without a warning, and
with the same output.
-/

/-!
# Only warnings are reported
-/

theorem LineMap.severity_relocate (lines : LineMap) (d : Diagnostic) :
    (lines.relocate d).severity = d.severity := by
  unfold LineMap.relocate
  split <;> rfl

namespace FunctionMacro

theorem areWarnings_warned {p : Progress} (hp : Diagnostics.AreWarnings p.warnings) (line : Nat)
    (m : FunctionMacro) (count : Nat) :
    Diagnostics.AreWarnings (if count == m.params.length then p
      else p.warn (p.lines.relocate (arityWarning line m count))).warnings := by
  split
  · exact hp
  · exact hp.append (Diagnostics.areWarnings_singleton (p.lines.severity_relocate _))

theorem areWarnings_expandCall {p q : Progress} {m : FunctionMacro} {offset : Nat} {inside : Bool}
    (h : expandCall p m offset inside = .ok q) (hp : Diagnostics.AreWarnings p.warnings) :
    Diagnostics.AreWarnings q.warnings := by
  unfold expandCall at h
  dsimp only at h
  split at h
  · cases h
  · cases h
    exact areWarnings_warned hp _ _ _

theorem areWarnings_expandLoop (blocked : List Text) (budget : Nat) {p : Progress}
    (macros : List FunctionMacro) (hp : Diagnostics.AreWarnings p.warnings) :
    Diagnostics.AreWarnings (expandLoop blocked budget p macros).warnings := by
  induction budget generalizing p macros with
  | zero => exact hp.append (Diagnostics.areWarnings_singleton rfl)
  | succ budget ih =>
      rw [expandLoop]
      split
      · exact hp
      · split
        · exact hp
        · rename_i q hcall
          have hq := areWarnings_expandCall hcall hp
          split
          · exact hq
          · exact ih _ hq

theorem areWarnings_expand (code : Text) (lines : LineMap) :
    Diagnostics.AreWarnings (expand code lines).warnings := by
  unfold expand
  split
  · exact List.forall_mem_nil _
  · split
    · exact List.forall_mem_nil _
    · dsimp only
      split
      · exact List.forall_mem_nil _
      · apply areWarnings_expandLoop
        intro d hd
        rcases List.mem_map.mp hd with ⟨m, _, rfl⟩
        exact lines.severity_relocate _

end FunctionMacro

theorem areWarnings_checkLegacy (code : Text) (stage : Stages) :
    Diagnostics.AreWarnings (checkLegacy code stage).warnings := by
  unfold checkLegacy
  split
  · exact List.forall_mem_nil _
  · split
    · exact List.forall_mem_nil _
    · apply Diagnostics.AreWarnings.append
      · unfold Check.lateExtensions
        split
        · exact List.forall_mem_nil _
        · intro d hd
          rcases List.mem_map.mp hd with ⟨t, _, rfl⟩
          rfl
      · split
        · exact Diagnostics.areWarnings_singleton rfl
        · exact List.forall_mem_nil _

/-!
# The passes of a build
-/

namespace Effect

open BuildStep

theorem agrees_resolveSource (o : BuildOptions) (chunk source : Text) :
    Agrees (resolveSource o chunk source) :=
  let text := if source.isEmpty then ("#include <" : Text) ++ chunk ++ ">" else source
  let resolution (s : Session) := s.registry.resolve o.search text
  agrees_update
    (u := fun s => { s with
      registry := (resolution s).1.registry
      asked := s.asked ++ (resolution s).1.asked })
    (f := fun s => orFail ((resolution s).2.mapError .diagnostic))
    ⟨fun _ => rfl, fun _ => rfl, fun _ => rfl, fun _ => rfl⟩ (fun _ => rfl)
    (fun _ => agrees_orFail _)

theorem agrees_reachEntry (code entry : Text) (stage : Stages) (resolved : Text)
    (lines : LineMap) : Agrees (reachEntry code entry stage resolved lines) := by
  unfold reachEntry
  apply (agrees_orFail _).bind
  intro e
  cases e.failure with
  | some failure => exact agrees_fail failure
  | none => exact agrees_orFailAt resolved lines _

theorem agrees_passMessages (resolved : Text) (lines : LineMap) (messages : List AuthorMessage) :
    Agrees (passMessages resolved lines messages) := by
  induction messages with
  | nil => exact agrees_pure ()
  | cons m rest ih =>
      unfold passMessages
      split
      · apply (agrees_report _).bind
        · intro _
          exact ih
        · exact Diagnostics.areWarnings_singleton (lines.severity_relocate _)
      · split
        · exact (agrees_failAt _ resolved lines).bind fun _ => ih
        · exact ih

theorem agrees_collectDefines (ts : List Token) (resolved : Text) (lines : LineMap) :
    Agrees (collectDefines ts resolved lines) :=
  agrees_update
    (u := fun s => { s with defines := (extractDefines ts s.defines).1 })
    (f := fun s => orFailAt resolved lines ((extractDefines ts s.defines).2.mapError .diagnostic))
    ⟨fun _ => rfl, fun _ => rfl, fun _ => rfl, fun _ => rfl⟩ (fun _ => rfl)
    (fun _ => agrees_orFailAt resolved lines _)

theorem agrees_collectResources (o : BuildOptions) (code : Text) (stage : Stages)
    (pragmas : Extraction) (resolved : Text) (lines : LineMap) :
    Agrees (collectResources o code stage pragmas resolved lines) := by
  unfold collectResources
  apply (agrees_orFailAt resolved lines _).bind
  intro vulkan
  apply (agrees_orFailAt resolved lines _).bind
  intro ts
  apply (agrees_orFailAt resolved lines _).bind
  intro info
  let shown : ShaderInfo :=
    ⟨info.params.map fun p => { p with line := (lines.source p.line).toNat }⟩
  refine agrees_update
    (u := fun s => { s with info := (s.info.merge shown).1 })
    ⟨fun _ => rfl, fun _ => rfl, fun _ => rfl, fun _ => rfl⟩ (fun _ => rfl) ?_
  intro s
  split
  · exact agrees_fail _
  · exact agrees_pure ()

theorem agrees_expandStage (o : BuildOptions) (effect : Text) (s : StageSource) :
    Agrees (expandStage o effect s) := by
  unfold expandStage
  apply (agrees_setShader s.name).bind
  intro _
  apply (agrees_resolveSource o _ s.source).bind
  intro resolved
  apply (agrees_orFailAt _ _ _).bind
  intro subpass
  apply (agrees_report (FunctionMacro.areWarnings_expand _ _)).bind
  intro _
  apply (agrees_orFailAt _ _ _).bind
  intro code
  apply (agrees_reachEntry _ _ _ _ _).bind
  intro code
  apply (agrees_orFailAt _ _ _).bind
  intro ts
  apply agrees_get (fun _ => rfl)
  intro t
  dsimp only
  cases deprecatedWord? t.registry ts with
  | some d => exact agrees_failAt_bind _ _ _ _
  | none =>
      apply (agrees_collectDefines ts _ _).bind
      intro pragmas
      apply (agrees_passMessages _ _ _).bind
      intro _
      apply (agrees_collectResources o _ _ _ _ _).bind
      intro _
      apply agrees_settle.bind
      intro _
      exact (agrees_debug _ _).bind fun _ => agrees_pure _

theorem agrees_writeLegacy (o : BuildOptions) (u : ExpandedStage) : Agrees (writeLegacy o u) := by
  unfold writeLegacy
  apply (agrees_orFail _).bind
  intro text
  apply agrees_get (fun _ => rfl)
  intro s
  apply (agrees_orFail _).bind
  intro text
  dsimp only
  split
  · apply (agrees_report (areWarnings_checkLegacy _ _)).bind
    intro _
    split
    · exact agrees_failAt_bind _ _ _ _
    · exact agrees_pure _
  · exact agrees_pure _

theorem agrees_writeStage (o : BuildOptions) (effect : Text) (u : ExpandedStage) :
    Agrees (writeStage o effect u) := by
  have hrest (glsl3 glsl1 : Text) : Agrees (do
      let stage := u.source.stage
      let glsl4 <- orFail (downgrade u.code o.vulkan u.extensions (stage == .vertexOnly))
      let glsl4 <- orFail (decorate glsl4 stage (← get).info)
      let out : StageOutput := ⟨stage, u.chunk, u.entry, glsl1, clean glsl3, clean glsl4⟩
      debug "effectc: stage compiled"
        [("effect", effect), ("shader", u.source.name), ("stage", stage.render),
         ("glsl1", Text.ofNat out.glsl1.length), ("glsl3", Text.ofNat out.glsl3.length),
         ("glsl4", Text.ofNat out.glsl4.length)]
      return out : BuildStep StageOutput) := by
    apply (agrees_orFail _).bind
    intro glsl4
    apply agrees_get (fun _ => rfl)
    intro s
    apply (agrees_orFail _).bind
    intro glsl4
    exact (agrees_debug _ _).bind fun _ => agrees_pure _
  unfold writeStage
  apply (agrees_setShader _).bind
  intro _
  apply (agrees_orFail _).bind
  intro glsl3
  dsimp only
  split
  · exact hrest glsl3 []
  · exact (agrees_writeLegacy o u).bind fun glsl1 => hrest glsl3 glsl1

theorem agrees_numberResources : Agrees numberResources := by
  unfold numberResources
  apply (agrees_setShader []).bind
  intro _
  refine agrees_update
    (u := fun s => { s with info := (Slots.allocate s.info).1 })
    ⟨fun _ => rfl, fun _ => rfl, fun _ => rfl, fun _ => rfl⟩ (fun _ => rfl) ?_
  intro s
  split
  · exact agrees_fail _
  · exact agrees_pure ()

theorem agrees_linkStages (o : BuildOptions) (kind : EffectKind) (shaders : List StageOutput) :
    Agrees (linkStages o kind shaders) := by
  unfold linkStages
  split
  · apply (agrees_setShader _).bind
    intro _
    apply agrees_get (fun _ => rfl)
    intro s
    dsimp only
    apply (agrees_modify _).bind
    · intro _
      split
      · exact agrees_fail _
      · exact agrees_pure ()
    · exact ⟨fun _ => rfl, fun _ => rfl, fun _ => rfl, fun _ => rfl⟩
  · exact agrees_pure ()

theorem agrees_compile (o : BuildOptions) (name : Text) (kind : EffectKind)
    (stages : List StageSource) : Agrees (compile o name kind stages) := by
  unfold compile
  apply (Agrees.mapM (agrees_expandStage o name) stages).bind
  intro units
  apply agrees_numberResources.bind
  intro _
  apply agrees_get (fun _ => rfl)
  intro s
  have hloose : Diagnostics.AreWarnings ((s.info.list .uniform).map looseUniformWarning) := by
    intro d hd
    rcases List.mem_map.mp hd with ⟨p, _, rfl⟩
    rfl
  apply (agrees_report hloose).bind
  intro _
  apply agrees_settle.bind
  intro _
  apply (Agrees.mapM (agrees_writeStage o name) units).bind
  intro shaders
  apply (agrees_linkStages o kind shaders).bind
  intro _
  apply agrees_settle.bind
  intro _
  apply agrees_get (fun _ => rfl)
  intro s
  exact (agrees_debug _ _).bind fun _ => agrees_pure _

theorem not_isDoomed_of_compile {o : BuildOptions} {name : Text} {kind : EffectKind}
    {stages : List StageSource} {s t : Session} {out : EffectOutput}
    (h : (compile o name kind stages).after s = (.ok out, t)) : ¬ t.IsDoomed := by
  unfold compile at h
  rcases exists_of_bind h with ⟨units, s1, _, h⟩
  rcases exists_of_bind h with ⟨_, s2, _, h⟩
  rcases exists_of_bind h with ⟨_, s3, _, h⟩
  rcases exists_of_bind h with ⟨_, s4, _, h⟩
  rcases exists_of_bind h with ⟨_, s5, _, h⟩
  rcases exists_of_bind h with ⟨shaders, s6, _, h⟩
  rcases exists_of_bind h with ⟨_, s7, _, h⟩
  rcases exists_of_bind h with ⟨_, s8, hsettle, h⟩
  rw [after_settle] at hsettle
  cases hfatal : s7.collector.fatal with
  | some d =>
      rw [hfatal] at hsettle
      cases hsettle
  | none =>
      rw [hfatal] at hsettle
      cases hsettle
      cases h
      exact fun hdoomed => hdoomed hfatal

theorem compile_strict_iff (o : BuildOptions) (name : Text) (kind : EffectKind)
    (stages : List StageSource) (out : EffectOutput) {s : Session} (hs : s.IsCalm) :
    ((compile o name kind stages).after s.strict).1 = .ok out ↔
      ((compile o name kind stages).after s).1 = .ok out ∧
        ¬ ((compile o name kind stages).after s).2.IsWarned := by
  rcases (agrees_compile o name kind stages).together s hs with ⟨hcalm, hr, hr'⟩ | ⟨hr, hr'⟩
  · rw [hr, hr']
    exact ⟨fun h => ⟨h, fun hwarned => hwarned hcalm.unwarned⟩, fun h => h.1⟩
  · constructor
    · intro hout
      rcases hr' with ⟨e, he⟩ | hdoomed
      · rw [he] at hout
        cases hout
      · exact absurd hdoomed (not_isDoomed_of_compile (Prod.ext hout rfl))
    · rintro ⟨hout, hunwarned⟩
      rcases hr with ⟨e, he⟩ | hwarned
      · rw [he] at hout
        cases hout
      · exact absurd hwarned hunwarned

end Effect

/-!
# Whole builds
-/

theorem mapError_eq_ok_iff {α β ε : Type} {f : α -> β} {r : Except α ε} {out : ε} :
    r.mapError f = .ok out ↔ r = .ok out := by
  cases r with
  | error e =>
      show (Except.error (f e) : Except β ε) = .ok out ↔ _
      simp
  | ok o =>
      show (Except.ok o : Except β ε) = .ok out ↔ _
      simp

/-- A build that treats warnings as errors succeeds exactly if the build that does not succeeds
without a warning, and then both have the same output. -/
theorem build_throwOnWarning_iff (o : BuildOptions) (name : Text) (kind : EffectKind)
    (stages : List StageSource) (out : EffectOutput) :
    (build { o with throwOnWarning := true } name kind stages).outcome = .ok out ↔
      (build { o with throwOnWarning := false } name kind stages).outcome = .ok out ∧
        Diagnostics.warnings (build { o with throwOnWarning := false } name kind
          stages).session.collector.diagnostics = [] := by
  let start := Effect.newSession { o with throwOnWarning := false } name
  have hstart : start.IsCalm := ⟨rfl, rfl, rfl⟩
  unfold build
  cases Effect.stageError? kind stages with
  | some e => simp
  | none =>
      -- No step reads the option itself, so both builds run the same steps.
      show ((Effect.compile o name kind stages).after start.strict).1.mapError Failure.diagnostic =
          .ok out ↔
        ((Effect.compile o name kind stages).after start).1.mapError Failure.diagnostic = .ok out ∧
          Diagnostics.warnings
            ((Effect.compile o name kind stages).after start).2.collector.diagnostics = []
      rw [mapError_eq_ok_iff, mapError_eq_ok_iff, Effect.compile_strict_iff o name kind stages out
        hstart]
      unfold Session.IsWarned
      rw [Classical.not_not]

end EffectShader
