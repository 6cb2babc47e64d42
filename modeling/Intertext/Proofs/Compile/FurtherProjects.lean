import Intertext.Proofs.Compile.Listed
/-!
Further projects for transclusion.

Where the list for transclusion is extended at its end, every target that was found is found again,
at the same place: the best candidate stays the best (`Priority.best?_append`), and the end of what
is pointed at is looked for in the project of its start, whatever the list says. So a compilation
that gives a tree gives the same tree with the longer list (`compile_extendedBy`), and it does not
matter what the further projects hold, nor whether they can be read. A compilation that fails may
succeed with the longer list, or fail in another way.
-/

namespace Intertext.Compile

open Markup (Element)
open Index (Tables)
open Priority (best?)

/-! ## 1. Targets -/

variable {tables : Tables} {priority : List String} {target : String} {targetEnd : Option String}

/-- What an identifier points at stays the same. -/
theorem ofUrn_append (more : List String) {found : Target}
    (h : Target.ofUrn tables priority target targetEnd = .ok found) :
    Target.ofUrn tables (priority ++ more) target targetEnd = .ok found := by
  rcases ofUrn_eq_ok.mp h with ⟨start, stop, isBest, noEnd, same⟩ | ⟨start, isBest, single⟩
  · exact ofUrn_eq_ok.mpr (Or.inl ⟨start, stop, Priority.best?_append more isBest, noEnd, same⟩)
  · exact ofUrn_eq_ok.mpr (Or.inr ⟨start, Priority.best?_append more isBest, single⟩)

/-! ## 2. Libraries -/

/-- The library with settings that list further projects for transclusion after all others. -/
def Library.extendedBy (library : Library) (more : List String) : Library :=
  { library with settings.transclusion := library.settings.transclusion ++ more }

variable (library : Library) (more : List String)

theorem locate_extendedBy {file : SourceFile} {found : Target}
    (h : (Target.locate library file target targetEnd).result = .ok found) :
    (Target.locate (library.extendedBy more) file target targetEnd).result = .ok found := by
  refine locate_eq_ok.mpr ((locate_eq_ok.mp h).imp_right ?_)
  rintro ⟨noFragment, tables, holds, located⟩
  exact ⟨noFragment, tables, holds, ofUrn_append more located⟩

/-- The longer list is asked for targets only; every other answer is the same. -/
theorem compares_extendedBy (limit : Nat) :
    library.Compares (.ofValues limit) (fun _ => True) (library.extendedBy more) where
  read _ _ _ reads := reads
  locate _ _ _ _ _ located := locate_extendedBy library more located
  target _ _ := trivial
  referencing _ _ _ _ found := found
  referring _ _ _ _ := trivial
  instruction _ _ found := found
  best _ := trivial

/-! ## 3. Compilations -/

/-- *A tree that is compiled is compiled too where further projects are listed for transclusion
after all others.* -/
theorem compile_extendedBy (file : SourceFile) {tree : Element}
    (ran : (compile library file).result = .ok tree) :
    (compile (library.extendedBy more) file).result = .ok tree := by
  have frames := levels_compares rfl (compares_extendedBy library more library.settings.maxDepth)
    (Nat.le_refl library.settings.maxDepth)
  exact frames.copy none file none trivial tree ran

/-- What is quoted stays the same where the project is listed, too, whose definition of it comes
first in the tables. -/
theorem compile_extendedBy_crowded :
    ∃ tree, (compile crowded ⟨"A", "a.xml"⟩).result = .ok tree ∧ tree.characters = "B" ∧
      (compile (crowded.extendedBy ["C", "B", "D"]) ⟨"A", "a.xml"⟩).result = .ok tree := by
  have shown : (compile quotes ⟨"A", "a.xml"⟩).result.map Element.characters = .ok "B" := by
    decide +kernel
  obtain ⟨tree, quoted, isShown⟩ := Outcome.map_eq_ok.mp shown
  have ran := compile_of_sharesListed quotes_sharesListed_crowded quoted
  exact ⟨tree, ran, isShown, compile_extendedBy crowded ["C", "B", "D"] ⟨"A", "a.xml"⟩ ran⟩

end Intertext.Compile
