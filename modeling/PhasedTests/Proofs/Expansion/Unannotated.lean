import PhasedTests.Proofs.Expansion.Annotations

/-!
# No annotation is made

The calls that a generated method makes are no annotations, and reading locals makes none either. So
the method of a test without annotations has none.
-/

namespace PhasedTests

namespace Tree

/-- An annotation is told by the shape of its call and the number of its children. -/
theorem annotates_iff {t : Tree} :
    t.annotates = true ↔ t.callShape? = some (false, "transform!") ∧ 2 < t.children.length := by
  unfold annotates callShape?
  cases hcall : t.call? with
  | none => simp
  | some call =>
    obtain ⟨receiver, method, args⟩ := call
    obtain ⟨first, hchildren, -⟩ := children_of_call? hcall
    rw [hchildren]
    cases receiver with
    | some receiver => simp
    | none =>
      cases args with
      | nil => simp
      | cons arg rest =>
        by_cases hmethod : method = "transform!"
        · rw [hmethod]
          simp
        · simp [hmethod]

/-- Trees that agree in the shape of their calls and the number of their children both annotate or
neither does. -/
theorem annotates_congr {a b : Tree} (hshape : a.callShape? = b.callShape?)
    (hlength : a.children.length = b.children.length) : a.annotates = b.annotates := by
  rw [Bool.eq_iff_iff, annotates_iff, annotates_iff, hshape, hlength]

/-- Only calls are annotations. -/
theorem annotates_eq_false {t : Tree} (htag : t.tag ∉ ["send", "csend"]) : t.annotates = false := by
  unfold annotates
  rw [call?_eq_none htag]

private theorem annotates_located (t : Tree) (place : Option Span) :
    (t.located place).annotates = t.annotates := by
  cases t with
  | leaf value => rfl
  | node tag children location => exact annotates_congr (callShape?_congr rfl) rfl

private theorem unannotated_leaf (value : Scalar) : (leaf value).Unannotated :=
  forall_inside_leaf.mpr rfl

end Tree

namespace Generate

variable (names : List String)

/-- Reading locals makes no annotations. -/
private theorem annotates_callsToLocals {t : Tree} (hplain : t.annotates = false) :
    (callsToLocals names t).annotates = false := by
  cases t with
  | leaf value =>
    rw [callsToLocals]
    exact hplain
  | node tag children location =>
    rcases callsToLocals_cases names tag children location with ⟨name, hlocal⟩ | hkept
    · rw [hlocal]
      rfl
    · rw [hkept, ← hplain]
      refine Tree.annotates_congr (Tree.callShape?_congr ?_) (List.length_map _)
      rw [List.map_map]
      exact List.map_congr_left fun t _ => scalar?_callsToLocals names t

private theorem unannotated_callsToLocals (t : Tree) (hplain : t.Unannotated) :
    (callsToLocals names t).Unannotated := by
  cases t with
  | leaf value =>
    rw [callsToLocals]
    exact hplain
  | node tag children location =>
    obtain ⟨hnode, hchildren⟩ := Tree.unannotated_node.mp hplain
    have hother := annotates_callsToLocals names hnode
    rcases callsToLocals_cases names tag children location with ⟨name, hlocal⟩ | hkept
    · rw [hlocal] at hother ⊢
      refine Tree.unannotated_node.mpr ⟨hother, fun c hc => ?_⟩
      rw [List.mem_singleton.mp hc]
      exact Tree.unannotated_leaf _
    · rw [hkept] at hother ⊢
      refine Tree.unannotated_node.mpr ⟨hother, fun c hc => ?_⟩
      obtain ⟨d, hd, rfl⟩ := List.mem_map.mp hc
      exact unannotated_callsToLocals d (hchildren d hd)

end Generate

/-- To hold no annotations is a comparison that everything assembled from a tree obeys. -/
theorem assembly_unannotated : Assembly fun a b => b.Unannotated → a.Unannotated where
  refl _ hplain := hplain
  trans hfirst hsecond hplain := hfirst (hsecond hplain)
  leaf value _ _ := Tree.unannotated_leaf value
  child hmember hplain := (Tree.unannotated_node.mp hplain).2 _ hmember
  generated {tag _ _ _} hknown hparts _ hplain := by
    have hcalls : ∀ tag ∈ plainTags, tag ∉ ["send", "csend"] := by decide
    exact Tree.unannotated_node.mpr
      ⟨Tree.annotates_eq_false (hcalls tag (List.contains_iff_mem.mp hknown)),
        fun c hc => hparts c hc hplain⟩
  call {receiver method args _} hother hreceiver hargs hplain := by
    refine Tree.unannotated_node.mpr ⟨?_, Tree.Build.forall_children_call Tree.unannotated_leaf
      (fun r hr => hreceiver r hr hplain) fun a ha => hargs a ha hplain⟩
    rw [Bool.eq_false_iff]
    intro hannotates
    obtain ⟨hshape, -⟩ := Tree.annotates_iff.mp hannotates
    obtain ⟨call, hcall, hpair⟩ := Option.map_eq_some_iff.mp hshape
    obtain ⟨_, hchildren, -⟩ := Tree.children_of_call? hcall
    have hmethod : method = call.method := by
      simpa [Tree.children] using (List.cons.inj (List.cons.inj hchildren).2).1
    exact hother (hmethod.trans (Prod.mk.inj hpair).2)
  block _ hhead hparams hbody hplain := by
    refine Tree.unannotated_node.mpr ⟨Tree.annotates_eq_false (by decide : "block" ∉ _), ?_⟩
    simp only [List.forall_mem_cons]
    exact ⟨hhead hplain, hparams hplain, hbody hplain, List.forall_mem_nil _⟩
  moved {a _ _} hpart _ hplain := by
    cases a with
    | leaf value => exact Tree.unannotated_leaf value
    | node tag children location =>
      obtain ⟨hnode, hchildren⟩ := Tree.unannotated_node.mp (hpart hplain)
      exact Tree.unannotated_node.mpr ⟨(Tree.annotates_located _ _).trans hnode, hchildren⟩
  locals names t := Generate.unannotated_callsToLocals names t

namespace Generate

/-- The index of a data row makes no annotation of a name. -/
private theorem unannotated_indexedTestName {t : Tree} (hplain : t.Unannotated) :
    (indexedTestName t).Unannotated := by
  unfold indexedTestName
  split
  · rename_i name hfound
    obtain ⟨old, hold, hname⟩ := Option.bind_eq_some_iff.mp hfound
    cases t with
    | leaf value => exact hplain
    | node tag children location =>
      obtain ⟨hnode, hchildren⟩ := Tree.unannotated_node.mp hplain
      have hmem : old ∈ children :=
        List.mem_of_getElem? (Option.filter_eq_some_iff.mp hold).1
      refine Tree.unannotated_node.mpr ⟨?_, fun c hc => ?_⟩
      · rw [← hnode]
        refine Tree.annotates_congr (Tree.callShape?_congr ?_) List.length_set
        have hscalar : name.scalar? = old.scalar? := by
          unfold indexedName? at hname
          split at hname
          · rw [← Option.some.inj hname]
            rfl
          · rw [← Option.some.inj hname]
            rfl
          · cases hname
        match children with
        | [] | [_] | [_, _] => rfl
        | _ :: _ :: third :: _ =>
          obtain rfl : third = old := Option.some.inj (Option.filter_eq_some_iff.mp hold).1
          simp [Tree.children, hscalar]
      · rcases List.mem_or_eq_of_mem_set hc with hc | rfl
        · exact hchildren c hc
        · exact assembly_unannotated.of_indexedName? hname (hchildren old hmem)
  · exact hplain

/-- The method that is generated from a test without annotations inside has none. -/
theorem unannotated_method {context : Context} {t test built : Tree}
    (hplain : ∀ c ∈ t.children, c.Unannotated) (hparse : TestMethod.parse context t = .ok test)
    (hdone : method test = .ok built) : built.Unannotated := by
  have hblock (children : List Tree) (hchildren : ∀ c ∈ children, c.Unannotated)
      (place : Option Span) : (Tree.node "block" children place).Unannotated :=
    Tree.unannotated_node.mpr ⟨Tree.annotates_eq_false (by decide : "block" ∉ _), hchildren⟩
  have htest : test.Unannotated := by
    refine assembly_unannotated.of_testParse hparse (fun c hc _ => hplain c hc) ?_
      (hblock t.children hplain none)
    intro span hspan
    exact ⟨.node "block" [] t.location, fun _ => hblock [] (fun c hc => nomatch hc) t.location,
      hspan⟩
  unfold method at hdone
  split at hdone
  · cases hdone
  · rename_i view hview
    obtain ⟨hcall, hargs, hphases, hrows⟩ := assembly_unannotated.of_testView hview
    obtain ⟨body, hbody, hdone⟩ := ok_of_bind hdone
    have hbodyPlain := assembly_unannotated.of_methodBody hbody hphases htest
    split at hdone
    · rename_i table htable
      rw [← Except.ok.inj hdone]
      have hiteration := assembly_unannotated.iteration
        (fun row hrow => hrows table htable row hrow) htest
      have hparams := @Assembly.loopParams _ test assembly_unannotated table.header htest
      refine hblock _ ?_ none
      simp only [List.forall_mem_cons]
      refine ⟨hiteration, hparams, unannotated_callsToLocals _ _ (hblock _ ?_ none),
        List.forall_mem_nil _⟩
      simp only [List.forall_mem_cons]
      exact ⟨unannotated_indexedTestName (hcall htest), hargs htest, hbodyPlain,
        List.forall_mem_nil _⟩
    · rw [← Except.ok.inj hdone]
      refine hblock _ ?_ none
      simp only [List.forall_mem_cons]
      exact ⟨hcall htest, hargs htest, hbodyPlain, List.forall_mem_nil _⟩

end Generate

end PhasedTests
