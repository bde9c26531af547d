import PhasedTests.Proofs.Generate.Locals

/-!
# Reading locals twice

A bare call has no child nodes, so reading the calls inside a node as locals neither makes a bare
call of the node nor hides one. Every node is therefore judged as it stands in the tree at first:
two passes read the calls that one pass with the names of both reads, in whichever order they are
made, and behind a pass no call to its names is left.
-/

namespace PhasedTests

/-- The second tree has the tag, the place and the scalars of the first one, and nodes and scalars
at the same places among its children. -/
structure Tree.Keeps (t u : Tree) : Prop where
  tag : u.tag = t.tag
  location : u.location = t.location
  scalar : u.scalar? = t.scalar?
  scalars : u.children.map Tree.scalar? = t.children.map Tree.scalar?

namespace Generate

/-- What becomes of a tree when bare calls to the names are read as locals: such a call becomes a
local at its place, and any other tree is kept, apart from the nodes inside it. -/
inductive ReadsLocal (names : List String) (t : Tree) : Tree → Prop
  | call {name : String} : t.bareCall? = some name → name ∈ names →
      ReadsLocal names t (.node "lvar" [.symbol name] t.location)
  | other {u : Tree} : (∀ name ∈ names, t.bareCall? ≠ some name) → t.Keeps u → ReadsLocal names t u

variable {names first second : List String}

/-- A tree calls one of the names, or none of them. -/
theorem call_or_other (names : List String) (t : Tree) :
    (∃ name ∈ names, t.bareCall? = some name) ∨ ∀ name ∈ names, t.bareCall? ≠ some name := by
  by_cases hcall : ∃ name ∈ names, t.bareCall? = some name
  · exact Or.inl hcall
  · exact Or.inr fun name hname hsame => hcall ⟨name, hname, hsame⟩

/-- A bare call to one of the names becomes a local at its place. -/
theorem callsToLocals_of_call {t : Tree} {name : String} (hcall : t.bareCall? = some name)
    (hname : name ∈ names) :
    callsToLocals names t = .node "lvar" [.symbol name] t.location := by
  cases t with
  | leaf value => cases hcall
  | node tag children location =>
    have hfound : (Tree.node tag children location).bareCall?.filter names.contains =
        some name := by
      rw [hcall, Option.filter_some, if_pos (List.contains_iff_mem.mpr hname)]
    rw [callsToLocals, hfound]
    rfl

/-- Any other node is kept, and its children are read. -/
theorem callsToLocals_of_other {tag : String} {children : List Tree} {location : Option Span}
    (hother : ∀ name ∈ names, (Tree.node tag children location).bareCall? ≠ some name) :
    callsToLocals names (.node tag children location) =
      .node tag (children.map (callsToLocals names)) location := by
  have hnone : (Tree.node tag children location).bareCall?.filter names.contains = none := by
    refine Option.filter_eq_none_iff.mpr fun name hcall hname => ?_
    exact hother name (List.contains_iff_mem.mp hname) hcall
  rw [callsToLocals, hnone, callsToLocalsAll_eq_map]

/-- A tree is read as a local, or it is kept. -/
theorem readsLocal_callsToLocals (names : List String) (t : Tree) :
    ReadsLocal names t (callsToLocals names t) := by
  rcases call_or_other names t with ⟨name, hname, hcall⟩ | hother
  · rw [callsToLocals_of_call hcall hname]
    exact .call hcall hname
  · refine .other hother ?_
    cases t with
    | leaf value =>
      rw [callsToLocals]
      exact ⟨rfl, rfl, rfl, rfl⟩
    | node tag children location =>
      rw [callsToLocals_of_other hother]
      refine ⟨rfl, rfl, rfl, ?_⟩
      rw [Tree.children, List.map_map]
      exact List.map_congr_left fun child _ => scalar?_callsToLocals names child

/-- A tree that is kept calls what it called before. -/
theorem bareCall?_callsToLocals_of_other {t : Tree}
    (hother : ∀ name ∈ names, t.bareCall? ≠ some name) :
    (callsToLocals names t).bareCall? = t.bareCall? := by
  generalize hread : callsToLocals names t = u
  cases hread ▸ readsLocal_callsToLocals names t with
  | call hcall hname => exact absurd hcall (hother _ hname)
  | other _ hkeeps => exact Tree.bareCall?_congr hkeeps.tag hkeeps.scalars

/-- Behind a pass a tree calls none of the names. -/
theorem bareCall?_callsToLocals_ne (t : Tree) : ∀ name ∈ names,
    (callsToLocals names t).bareCall? ≠ some name := by
  generalize hread : callsToLocals names t = u
  cases hread ▸ readsLocal_callsToLocals names t with
  | call => exact fun _ _ => nofun
  | other hother hkeeps =>
    rw [Tree.bareCall?_congr hkeeps.tag hkeeps.scalars]
    exact hother

/-- Two passes read what one pass with the names of both reads. -/
theorem callsToLocals_callsToLocals (t : Tree) :
    callsToLocals second (callsToLocals first t) = callsToLocals (first ++ second) t := by
  cases t with
  | leaf value => rw [callsToLocals, callsToLocals, callsToLocals]
  | node tag children location =>
    rcases call_or_other first (.node tag children location) with ⟨name, hname, hcall⟩ | hkept
    · rw [callsToLocals_of_call hcall hname,
        callsToLocals_of_call hcall (List.mem_append_left second hname),
        callsToLocals_node _ (by decide), List.map_singleton, callsToLocals]
    · have hsame := bareCall?_callsToLocals_of_other hkept
      rcases call_or_other second (.node tag children location) with ⟨name, hname, hcall⟩ | hother
      · rw [callsToLocals_of_call (hsame.trans hcall) hname, location_callsToLocals,
          callsToLocals_of_call hcall (List.mem_append_right first hname)]
      · have hboth : ∀ name ∈ first ++ second,
            (Tree.node tag children location).bareCall? ≠ some name := fun name hname =>
          (List.mem_append.mp hname).elim (hkept name) (hother name)
        rw [callsToLocals_of_other hkept] at hsame ⊢
        rw [callsToLocals_of_other (hsame ▸ hother), callsToLocals_of_other hboth, List.map_map]
        exact congrArg (Tree.node tag · location)
          (List.map_congr_left fun child _ => callsToLocals_callsToLocals child)

/-- Neither the order nor the number of the names counts. -/
theorem callsToLocals_congr (hnames : ∀ name, name ∈ first ↔ name ∈ second) (t : Tree) :
    callsToLocals first t = callsToLocals second t := by
  cases t with
  | leaf value => rw [callsToLocals, callsToLocals]
  | node tag children location =>
    have hsame : first.contains = second.contains := funext fun name =>
      Bool.eq_iff_iff.mpr (List.contains_iff_mem.trans ((hnames name).trans
        List.contains_iff_mem.symm))
    have hchildren : children.map (callsToLocals first) = children.map (callsToLocals second) :=
      List.map_congr_left fun child _ => callsToLocals_congr hnames child
    rw [callsToLocals, callsToLocals, hsame, callsToLocalsAll_eq_map, callsToLocalsAll_eq_map,
      hchildren]

/-- Reading the calls to some names and then those to others reads the calls to all of them. So a
pass is idempotent, and two passes can be made in either order. Behind a pass no bare call to one of
its names is left at any depth. The trees at all paths stay there: a bare call to one of the names
has become a local at its place, and every other tree has its tag, its scalars and its place. -/
theorem readsLocal_of_callsToLocals (first second : List String) (t : Tree) :
    callsToLocals second (callsToLocals first t) = callsToLocals (first ++ second) t ∧
    callsToLocals first (callsToLocals first t) = callsToLocals first t ∧
    callsToLocals second (callsToLocals first t) = callsToLocals first (callsToLocals second t) ∧
    (∀ path u, (callsToLocals first t).dig? path = some u →
      ∀ name ∈ first, u.bareCall? ≠ some name) ∧
    ∀ path, Option.Rel (ReadsLocal first) (t.dig? path) ((callsToLocals first t).dig? path) := by
  refine ⟨callsToLocals_callsToLocals t, ?_, ?_, fun path u hdig => ?_, fun path => ?_⟩
  · rw [callsToLocals_callsToLocals]
    exact callsToLocals_congr (by simp) t
  · rw [callsToLocals_callsToLocals, callsToLocals_callsToLocals]
    exact callsToLocals_congr (by simp [or_comm]) t
  · rw [dig?_callsToLocals] at hdig
    obtain ⟨found, -, rfl⟩ := Option.map_eq_some_iff.mp hdig
    exact bareCall?_callsToLocals_ne found
  · rw [dig?_callsToLocals]
    cases t.dig? path with
    | none => exact .none
    | some found => exact .some (readsLocal_callsToLocals first found)

open Tree.Build in
/-- A call with an argument, a call on a call and a call to another name are kept, and the calls
inside them are read. -/
theorem readsLocal_of_callsToLocals_calls :
    let t := begin [call none "a" [], call none "a" [call none "b" []],
      call (some (call none "b" [])) "a" [], call none "c" []]
    let read := begin [lvar "a", call none "a" [call none "b" []],
      call (some (call none "b" [])) "a" [], call none "c" []]
    callsToLocals ["a"] t = read ∧
      callsToLocals ["b"] read = begin [lvar "a", call none "a" [lvar "b"],
        call (some (lvar "b")) "a" [], call none "c" []] ∧
      callsToLocals ["b"] read = callsToLocals ["a", "b"] t ∧ callsToLocals ["a"] read = read ∧
      callsToLocals ["b"] read = callsToLocals ["a"] (callsToLocals ["b"] t) ∧
      "a" ∈ ["a"] ∧ read.dig? [1] = some (call none "a" [call none "b" []]) ∧
      (call none "a" [call none "b" []]).bareCall? ≠ some "a" ∧
      ReadsLocal ["a"] (call none "a" []) (lvar "a") := by
  intro t read
  have hread : callsToLocals ["a"] t = read := rfl
  obtain ⟨hboth, hagain, hcomm, hnone, hpaths⟩ := readsLocal_of_callsToLocals ["a"] ["b"] t
  rw [hread] at hboth hagain hcomm hnone hpaths
  have hlocal : Option.Rel (ReadsLocal ["a"]) (some (call none "a" [])) (some (lvar "a")) :=
    hpaths [0]
  cases hlocal with
  | some hlocal =>
    exact ⟨hread, rfl, hboth, hagain, hcomm, List.mem_singleton_self "a", rfl,
      hnone [1] _ rfl "a" (List.mem_singleton_self "a"), hlocal⟩

end Generate

end PhasedTests
