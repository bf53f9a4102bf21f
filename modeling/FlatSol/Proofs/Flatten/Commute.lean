import FlatSol.Proofs.FileTree.Rewrite
import FlatSol.Proofs.Flatten.Confined

/-!
# Flattenings that commute

A flattening whose output is a file that stands there changes that file alone. It leaves another
flattening as it is if that one does not look at the file, as its entry or by an import. Main
statement: two such flattenings give the same results in either order, and leave the same tree.
-/

namespace FlatSol

variable {t u : FileTree} {entry root a b : Path} {s : Settings} {g : Graph} {k l la lb : Location}

/-- The output of a flattening is a regular file that stands there, no link to one. -/
structure OutputAt (t : FileTree) (entry root : Path) (s : Settings) (l : Location) : Prop where
  leads : t.resolve .keep (s.outputPath (t.normalize entry) (t.normalize root)) = .ok l
  file : ∃ bytes, t.get? l = some (.file bytes)

/-- What the imports of the files of a graph denote, be that a file to follow or not. -/
def Graph.asked (t : FileTree) (root : Path) (g : Graph) : List Location :=
  g.files.flatMap fun f => (Source.imports f.text).filterMap fun d =>
    t.canonical? (importCandidate d.path f.path root)

/-- A flattening does not look at a location: neither its entry nor an import of its files denotes
it. -/
structure Spares (t : FileTree) (entry root : Path) (l : Location) : Prop where
  notEntry : t.canonical? entry ≠ some l
  notAsked : ∀ g, Graph.build t (t.normalize entry) (t.normalize root) = .ok g →
    l ∉ g.asked t (t.normalize root)

/-! ### Trees with one file rewritten -/

/-- The tree with a text in the file at a location, if there is one to write. -/
def FileTree.rewritten (t : FileTree) (l : Location) : Option Text → FileTree
  | none => t
  | some text => t.set l (.file (Text.toBytes text))

theorem FileTree.AgreeBut.refl (hidden : Location → Prop) (t : FileTree) : t.AgreeBut hidden t :=
  ⟨fun _ => .inl rfl, rfl⟩

theorem FileTree.AgreeBut.of_rewritten {bytes : ByteArray} (hl : t.get? l = some (.file bytes))
    (w : Option Text) : t.AgreeBut (· = l) (t.rewritten l w) := by
  cases w with
  | none => exact .refl _ t
  | some text =>
    show t.AgreeBut (fun k => k = l) (t.set l _)
    exact .of_set hl (by rfl) _

theorem FileTree.workDir_rewritten (t : FileTree) (l : Location) (w : Option Text) :
    (t.rewritten l w).workDir = t.workDir := by
  cases w <;> rfl

theorem FileTree.get?_rewritten_of_ne (t : FileTree) (w : Option Text) (h : k ≠ l) :
    (t.rewritten l w).get? k = t.get? k := by
  cases w with
  | none => rfl
  | some text => exact t.get?_set_of_ne _ h

theorem FileTree.get?_rewritten_congr (h : u.get? l = t.get? l) (hne : l ≠ []) (w : Option Text) :
    (u.rewritten l w).get? l = (t.rewritten l w).get? l := by
  cases w with
  | none => exact h
  | some text => exact (u.get?_set_self _ hne).trans (t.get?_set_self _ hne).symm

/-- Files at two locations can be rewritten in either order. -/
theorem FileTree.get?_rewritten_comm (t : FileTree) (hk : k ≠ []) (hl : l ≠ []) (hkl : k ≠ l)
    (v w : Option Text) (j : Location) :
    ((t.rewritten k v).rewritten l w).get? j = ((t.rewritten l w).rewritten k v).get? j := by
  by_cases hj : j = l
  · subst hj
    rw [get?_rewritten_of_ne _ v hkl.symm]
    exact get?_rewritten_congr (t.get?_rewritten_of_ne v hkl.symm) hl w
  · rw [get?_rewritten_of_ne _ w hj]
    by_cases hj' : j = k
    · subst hj'
      exact (get?_rewritten_congr (t.get?_rewritten_of_ne w hj) hk v).symm
    · rw [get?_rewritten_of_ne _ v hj', get?_rewritten_of_ne _ v hj', get?_rewritten_of_ne _ w hj]

/-! ### A flattening that spares a file -/

/-- The graph is the same in a tree that differs in a spared file alone. -/
theorem Graph.build_of_spares (hw : t.WellFormed) (agree : t.AgreeBut (· = k) u)
    (spares : Spares t entry root k) :
    build u (t.normalize entry) (t.normalize root) =
      build t (t.normalize entry) (t.normalize root) := by
  cases hl : t.locate (t.normalize entry) with
  | error fault => simp only [build, agree.locate_eq, hl]
  | ok l =>
    have hentry : t.canonical? entry = some l := by
      rw [← hw.canonical?_normalize]
      exact FileTree.canonical_of_locate hl
    have hne : ¬ l = k := fun h => spares.notEntry (h ▸ hentry)
    have htext := Build.textAt_congr (agree.eq_of_not_hidden hne)
    cases ht : t.textAt l with
    | error fault => simp only [build, agree.locate_eq, hl, htext, ht]
    | ok text =>
      have hasked := spares.notAsked _ (build_of_canonical hw hentry ht)
      have halike : Build.ImportsAlike t u (t.normalize root)
          (Build.run t (t.normalize root) (Build.start t (t.normalize root) l text)) := by
        refine fun f hf =>
          ⟨agree.importsOf_eq _ f.location f.text, fun i hi target htarget => ?_⟩
        obtain ⟨d, hd, rfl⟩ := List.mem_map.1 hi
        refine agree.eq_of_not_hidden fun htk => hasked ?_
        rw [← htk]
        exact List.mem_flatMap.2
          ⟨f, hf, List.mem_filterMap.2 ⟨d, hd, canonical_of_resolved htarget⟩⟩
      rw [build_of_canonical hw hentry ht]
      simp only [build, agree.locate_eq, hl, htext, ht, agree.normalize_eq, hw.normalize_normalize]
      rw [Build.run_start_congr halike]

/-- What a flattening does to its output depends on no spared file, nor does its result. -/
theorem flatten_of_spares (hw : t.WellFormed) (output : OutputAt t entry root s l)
    (spares : Spares t entry root k) :
    ∃ w, ∀ u, t.AgreeBut (· = k) u →
      (flatten u entry root s).tree = u.rewritten l w ∧
        (flatten u entry root s).result = (flatten t entry root s).result := by
  obtain ⟨hleads, bytes, hbytes⟩ := output
  have hbuild := fun u (agree : t.AgreeBut (· = k) u) => Graph.build_of_spares hw agree spares
  cases hg : Graph.build t (t.normalize entry) (t.normalize root) with
  | error e =>
    refine ⟨none, fun u agree => ?_⟩
    have hu := (hbuild u agree).trans hg
    simp only [flatten, hu, hg, agree.normalize_eq, FileTree.rewritten, and_self]
  | ok g =>
    by_cases hsame : (t.normalize (s.outputPath (t.normalize entry) (t.normalize root))).same
        (t.normalize entry) = true
    · refine ⟨none, fun u agree => ?_⟩
      have hu := (hbuild u agree).trans hg
      simp only [flatten, hu, hg, agree.normalize_eq, hsame, if_true, FileTree.rewritten, and_self]
    · refine ⟨some (render g (t.normalize root) s).text, fun u agree => ?_⟩
      have hu := (hbuild u agree).trans hg
      have hwrite := FileTree.writeAtomic_of_file hw hleads hbytes agree
      have hwrite' := FileTree.writeAtomic_of_file hw hleads hbytes (.refl (· = k) t)
      simp only [flatten, hu, hg, agree.normalize_eq, hsame, hwrite, hwrite', Bool.false_eq_true,
        if_false, FileTree.rewritten, and_self]

/-- Two flattenings give the same results in either order, and leave the same tree, if their outputs
are different regular files that stand there and each of them spares the output of the other. -/
theorem flatten_commute (hw : t.WellFormed) (outputA : OutputAt t a root s la)
    (outputB : OutputAt t b root s lb) (apart : la ≠ lb) (sparesA : Spares t a root lb)
    (sparesB : Spares t b root la) :
    (flatten (flatten t b root s).tree a root s).result = (flatten t a root s).result ∧
      (flatten (flatten t a root s).tree b root s).result = (flatten t b root s).result ∧
      (flatten (flatten t b root s).tree a root s).tree.workDir =
        (flatten (flatten t a root s).tree b root s).tree.workDir ∧
      ∀ l, (flatten (flatten t b root s).tree a root s).tree.get? l =
        (flatten (flatten t a root s).tree b root s).tree.get? l := by
  obtain ⟨v, hv⟩ := flatten_of_spares hw outputA sparesA
  obtain ⟨w, hw'⟩ := flatten_of_spares hw outputB sparesB
  obtain ⟨-, bytesA, hla⟩ := outputA
  obtain ⟨-, bytesB, hlb⟩ := outputB
  have hta : (flatten t a root s).tree = t.rewritten la v := (hv t (.refl _ t)).1
  have htb : (flatten t b root s).tree = t.rewritten lb w := (hw' t (.refl _ t)).1
  obtain ⟨htba, hra⟩ := hv (t.rewritten lb w) (.of_rewritten hlb w)
  obtain ⟨htab, hrb⟩ := hw' (t.rewritten la v) (.of_rewritten hla v)
  have hla' : la ≠ [] := by
    rintro rfl
    simp at hla
  have hlb' : lb ≠ [] := by
    rintro rfl
    simp at hlb
  rw [hta, htb]
  refine ⟨hra, hrb, ?_, fun l => ?_⟩
  · rw [htba, htab]
    simp only [FileTree.workDir_rewritten]
  · rw [htba, htab]
    exact (t.get?_rewritten_comm hla' hlb' apart v w l).symm

/-- Two contracts that import the same file, both flattened before. -/
def sharedTree : FileTree where
  entries :=
    [(["p".toList], .dir),
      (["p".toList, "A.sol".toList], .file (Text.toBytes "import './C.sol';\nA".toList)),
      (["p".toList, "B.sol".toList], .file (Text.toBytes "import 'C.sol';\nB".toList)),
      (["p".toList, "C.sol".toList], .file (Text.toBytes "C".toList)),
      (["p".toList, "A_flattened.sol".toList], .file (Text.toBytes "A".toList)),
      (["p".toList, "B_flattened.sol".toList], .file (Text.toBytes "B".toList))]
  workDir := some ["p".toList]

theorem spares_sharedTree {e : Text} {o : Location}
    (hentry : sharedTree.canonical? ⟨e⟩ ≠ some o) (ho : o ≠ ["p".toList, "C.sol".toList])
    (hasked : (Graph.build sharedTree (sharedTree.normalize ⟨e⟩) ⟨"/p".toList⟩).toOption.map
      (Graph.asked sharedTree ⟨"/p".toList⟩) = some [["p".toList, "C.sol".toList]]) :
    Spares sharedTree ⟨e⟩ ⟨"/p".toList⟩ o := by
  have hroot : sharedTree.normalize ⟨"/p".toList⟩ = ⟨"/p".toList⟩ := by cbv
  refine ⟨hentry, fun g hg => ?_⟩
  rw [hroot] at hg ⊢
  rw [hg] at hasked
  have hlist : g.asked sharedTree ⟨"/p".toList⟩ = [["p".toList, "C.sol".toList]] :=
    Option.some.inj hasked
  rw [hlist, List.mem_singleton]
  exact ho

theorem flatten_commute_sharedTree :
    sharedTree.WellFormed ∧
      (flatten sharedTree ⟨"A.sol".toList⟩ ⟨"/p".toList⟩ {}).files? =
        some [⟨"/p/C.sol".toList⟩, ⟨"/p/A.sol".toList⟩] ∧
      (flatten (flatten sharedTree ⟨"B.sol".toList⟩ ⟨"/p".toList⟩ {}).tree ⟨"A.sol".toList⟩
          ⟨"/p".toList⟩ {}).result =
        (flatten sharedTree ⟨"A.sol".toList⟩ ⟨"/p".toList⟩ {}).result := by
  have hw : sharedTree.WellFormed := by decide
  have outputA : OutputAt sharedTree ⟨"A.sol".toList⟩ ⟨"/p".toList⟩ {}
      ["p".toList, "A_flattened.sol".toList] := ⟨by cbv, Text.toBytes "A".toList, by decide⟩
  have outputB : OutputAt sharedTree ⟨"B.sol".toList⟩ ⟨"/p".toList⟩ {}
      ["p".toList, "B_flattened.sol".toList] := ⟨by cbv, Text.toBytes "B".toList, by decide⟩
  have sparesA : Spares sharedTree ⟨"A.sol".toList⟩ ⟨"/p".toList⟩
      ["p".toList, "B_flattened.sol".toList] := by
    have hentry : sharedTree.canonical? ⟨"A.sol".toList⟩ = some ["p".toList, "A.sol".toList] := by
      cbv
    exact spares_sharedTree (by rw [hentry]; decide) (by decide) (by cbv)
  have sparesB : Spares sharedTree ⟨"B.sol".toList⟩ ⟨"/p".toList⟩
      ["p".toList, "A_flattened.sol".toList] := by
    have hentry : sharedTree.canonical? ⟨"B.sol".toList⟩ = some ["p".toList, "B.sol".toList] := by
      cbv
    exact spares_sharedTree (by rw [hentry]; decide) (by decide) (by cbv)
  refine ⟨hw, ?_, (flatten_commute hw outputA outputB (by decide) sparesA sparesB).1⟩
  rw [files?_flatten]
  cbv

end FlatSol
