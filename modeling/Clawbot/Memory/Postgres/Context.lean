import Clawbot.Memory.FileStore
import Clawbot.Memory.Postgres.Search

/-!
# The memory context of the PostgreSQL store

`get_memory_context()` assembles the long-term text and today's notes as the file store does.
`get_memory_context_semantic(query)` embeds the query and searches; when there is no embedding
service, when either step raises, or when the search finds nothing, it returns
`get_memory_context()`, and otherwise it puts a `## Relevant Memories (semantic)` section, one
line per hit, between the two sections of the plain context.

`read_long_term()` may return any row of greatest version, so both functions take the text it
returned; `SearchOutcome` is whatever the embedding service and `semantic_search` did, and
`fmt2` is Python's `f"{x:.2f}"`.
-/

namespace Clawbot.Memory.Postgres

open Clawbot.Python

/-- `if body: parts.append(header + body)` -/
def sectionPart (header body : String) : List String :=
  if body = "" then [] else [header ++ body]

/-- `get_memory_context()` on day `today`, once `read_long_term()` has returned `longTerm`. -/
def getMemoryContext (db : Db) (s : Store) (today : Date) (longTerm : String) : String :=
  FileStore.memoryContext longTerm (readToday db s today)

/-- What the embedding service and `semantic_search` did for the query: no
`_embedding_service` is attached, `embed(query)` or `semantic_search` raised, or
`semantic_search` returned these dicts. -/
inductive SearchOutcome
  | noService
  | raises
  | results (rs : List SearchResult)

/-- One line of the semantic section: `f"- [{source}{date_info} sim={sim}] {content}"`. -/
def hitLine (fmt2 : Float8 → String) (r : SearchResult) : String :=
  let dateInfo := match r.entryDate with
    | some d => if d = "" then "" else " (" ++ d ++ ")"
    | none => ""
  "- [" ++ r.source ++ dateInfo ++ " sim=" ++ fmt2 r.similarity ++ "] " ++ r.content

/-- `get_memory_context_semantic(query)` on day `today`, once `read_long_term()` has returned
`longTerm`. -/
def getMemoryContextSemantic (fmt2 : Float8 → String) (db : Db) (s : Store) (today : Date)
    (longTerm : String) : SearchOutcome → String
  | .noService | .raises => getMemoryContext db s today longTerm
  | .results rs =>
    if rs = [] then getMemoryContext db s today longTerm
    else
      let semanticParts := rs.map (hitLine fmt2)
      let parts := sectionPart "## Long-term Memory\n" longTerm ++
        (if semanticParts = [] then []
          else ["## Relevant Memories (semantic)\n" ++ join "\n" semanticParts]) ++
        sectionPart "## Today's Notes\n" (readToday db s today)
      if parts = [] then "" else join "\n\n" parts

theorem getMemoryContext_eq (db : Db) (s : Store) (today : Date) (longTerm : String) :
    getMemoryContext db s today longTerm =
      join "\n\n" (sectionPart "## Long-term Memory\n" longTerm ++
        sectionPart "## Today's Notes\n" (readToday db s today)) :=
  if_nil_join _ _

/-- The semantic context falls back to the plain one when there is no service, when a step
raises or when the search finds nothing; otherwise it is the plain context's sections with the
semantic section, one line per hit in search order, between them. -/
theorem getMemoryContextSemantic_inserts_section (fmt2 : Float8 → String) (db : Db) (s : Store)
    (today : Date) (longTerm : String) :
    (∀ outcome, outcome = .noService ∨ outcome = .raises ∨ outcome = .results [] →
      getMemoryContextSemantic fmt2 db s today longTerm outcome =
        getMemoryContext db s today longTerm) ∧
    ∀ rs, rs ≠ [] →
      getMemoryContext db s today longTerm =
          join "\n\n" (sectionPart "## Long-term Memory\n" longTerm ++
            sectionPart "## Today's Notes\n" (readToday db s today)) ∧
        getMemoryContextSemantic fmt2 db s today longTerm (.results rs) =
          join "\n\n" (sectionPart "## Long-term Memory\n" longTerm ++
            ["## Relevant Memories (semantic)\n" ++ join "\n" (rs.map (hitLine fmt2))] ++
            sectionPart "## Today's Notes\n" (readToday db s today)) := by
  refine ⟨?_, fun rs hrs => ⟨getMemoryContext_eq db s today longTerm, ?_⟩⟩
  · rintro _ (rfl | rfl | rfl) <;> rfl
  · simp only [getMemoryContextSemantic, if_neg hrs, if_nil_join, List.map_eq_nil_iff]

theorem getMemoryContextSemantic_inserts_section_one_hit :
    getMemoryContextSemantic (fun _ => "0.90") Db.empty ⟨3⟩ 0 "L" .raises =
        "## Long-term Memory\nL" ∧
      getMemoryContextSemantic (fun _ => "0.90") Db.empty ⟨3⟩ 0 "L"
          (.results [⟨"daily", 1, "a", some "2026-11-09", .num (9/10)⟩]) =
        "## Long-term Memory\nL\n\n## Relevant Memories (semantic)\n" ++
          "- [daily (2026-11-09) sim=0.90] a" := by
  have h := getMemoryContextSemantic_inserts_section (fun _ => "0.90") Db.empty ⟨3⟩ 0 "L"
  have hr : readToday Db.empty ⟨3⟩ 0 = "" := by simp [readToday, Db.empty]
  refine ⟨(h.1 .raises (.inr (.inl rfl))).trans ?_, (h.2 _ (List.cons_ne_nil _ _)).2.trans ?_⟩
  · rw [getMemoryContext_eq, hr]; decide
  · rw [hr]; decide

end Clawbot.Memory.Postgres
