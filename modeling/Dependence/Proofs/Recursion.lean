import Dependence.Proofs.Data
import Mathlib.Tactic

/-!
# The search for definitions, call by call

The definitions that reach a node are found by a search that keeps one list of nodes to look at
(`FlowGraph.reachingFrom`). The list is a stack: predecessors are put on top of it, whether or not
they were visited or wait further down already, and such stale entries are dropped only when their
turn comes.

`FlowGraph.trace` is the search as one would define it, by recursion. A call goes through the
predecessors of one node, and calls itself for those behind which the search goes on; what was
visited and what was found, its `Trail`, passes through all calls. The two agree because the top of
the stack is always what the innermost call has still to go through: putting nodes on top of the
stack and searching on is the same as making a call for them, and searching on with the trail that
it leaves (`FlowGraph.resume_append`). No property of the graph is used, and errors of look-ups come
out alike.

* `FlowGraph.nearestDefinitions_eq_traced` — both searches find the same, in the same order;
* `FlowGraph.nearestDefinitions_recursive` — and nothing twice.
-/

namespace Dependence

namespace FlowGraph

/-! ### The search by recursion -/

/-- **One call of the search**: go through the nodes one after the other. A node that was visited is
passed over. Any other is visited. The search does not go on behind it if it has no instruction, nor
if it defines the variable, when it is recorded. Otherwise a call is made for its predecessors. -/
def trace (f : FlowGraph) (p : DefUse) (x : Value) (s : Trail Node) :
    List Node → Except Error s.Further
  | [] => .ok ⟨s, List.Subset.refl s.visited⟩
  | n :: rest =>
    if s.visited.contains n then trace f p x s rest
    else if n.instruction? = none then
      return (← trace f p x (s.visit n) rest).since (s.visited_subset_visit n)
    else do
      if ← f.defines p x n then
        return (← trace f p x ((s.visit n).record n) rest).since (s.visited_subset_visit n)
      else
        let inner ← trace f p x (s.visit n) (f.predecessors n)
        return (← trace f p x inner.1 rest).since
          (List.Subset.trans (s.visited_subset_visit n) inner.2)
termination_by ns => f.toGraph.unvisitedWork s.visited f.nodes + ns.length
decreasing_by
  · simp only [List.length_cons]; omega
  all_goals
    have hle := f.toGraph.work_visit_le (eq_false_of_ne_true ‹¬ s.visited.contains n = true›)
    simp only [Trail.visit, Trail.record, List.length_cons]
  · omega
  · omega
  · omega
  · -- after the inner call: it has visited more nodes, so less work is left
    have hmono := f.toGraph.unvisitedWork_mono inner.2 f.nodes
    simp only [Trail.visit] at hmono
    omega

/-- The definitions of `x` that reach the node `r`, found by recursion. -/
def tracedDefinitions (f : FlowGraph) (p : DefUse) (r : Option Node) (x : Value) :
    Except Error (List Node) := do
  return (← f.trace p x .start (← f.predecessorsOf r)).1.recorded

/-! ### The search with a stack -/

variable (f : FlowGraph) (p : DefUse) (x : Value)

/-- All that is found when `reachingFrom` takes over from the trail `s`. -/
def resume (s : Trail Node) (pending : List Node) : Except Error (List Node) :=
  return s.recorded ++ (← f.reachingFrom p x s.visited pending)

theorem resume_nil (s : Trail Node) : f.resume p x s [] = .ok s.recorded := by
  rw [resume, reachingFrom, ok_bind, List.append_nil]
  rfl

/-- One step of `reachingFrom`, in terms of the trail. -/
theorem resume_cons (s : Trail Node) (n : Node) (pending : List Node) :
    f.resume p x s (n :: pending) =
      if s.visited.contains n then f.resume p x s pending
      else if n.instruction? = none then f.resume p x (s.visit n) pending
      else f.defines p x n >>= fun b =>
        if b then f.resume p x ((s.visit n).record n) pending
        else f.resume p x (s.visit n) (f.predecessors n ++ pending) := by
  simp only [resume, Trail.visit, Trail.record]
  rw [reachingFrom]
  split
  · rfl
  split
  · rfl
  -- a definition that is found is recorded in the trail, or put before the rest: the same list
  rw [bind_assoc]
  refine congrArg _ (funext fun b => ?_)
  cases b with
  | true => simp
  | false => rfl

/-- **A call of `trace` for nodes on top of the stack**: the search goes through `ns` first,
whatever lies below, and goes on with the trail that they leave. -/
theorem resume_append (s : Trail Node) (ns pending : List Node) :
    f.resume p x s (ns ++ pending) =
      f.trace p x s ns >>= fun t => f.resume p x t.1 pending := by
  -- along the calls; what lies below a call is the rest of the calls around it
  induction s, ns using trace.induct f generalizing pending with
  | case1 s => rw [trace, ok_bind, List.nil_append]
  | case2 s n rest hn ih =>
    rw [List.cons_append, resume_cons, trace, if_pos hn, if_pos hn, ih]
  | case3 s n rest hn hnone ih =>
    rw [List.cons_append, resume_cons, trace, if_neg hn, if_neg hn, if_pos hnone, if_pos hnone, ih,
      bind_assoc]
    rfl
  | case4 s n rest hn hsome ihrecord ihinner ihrest =>
    rw [List.cons_append, resume_cons, trace, if_neg hn, if_neg hn, if_neg hsome, if_neg hsome,
      bind_assoc]
    refine congrArg _ (funext fun b => ?_)
    cases b with
    | true =>
      rw [if_pos rfl, if_pos rfl, ihrecord, bind_assoc]
      rfl
    | false =>
      -- the predecessors come on top of the rest of this call, and that on top of the others
      rw [if_neg Bool.false_ne_true, if_neg Bool.false_ne_true, ihinner, bind_assoc]
      refine congrArg _ (funext fun inner => ?_)
      rw [ihrest, bind_assoc]
      rfl

/-- **Both searches agree**, errors included. -/
theorem nearestDefinitions_eq_traced (r : Option Node) :
    f.nearestDefinitions p r x = f.tracedDefinitions p r x := by
  rw [nearestDefinitions, tracedDefinitions]
  refine congrArg _ (funext fun ns => ?_)
  -- nothing was found before the search, and nothing lies below the first call
  have hstart : f.resume p x .start ns = f.reachingFrom p x [] ns := by
    simp [resume, Trail.start]
  have hcall : f.resume p x .start ns =
      f.trace p x .start ns >>= fun t => f.resume p x t.1 [] := by
    rw [← resume_append, List.append_nil]
  simp only [resume_nil] at hcall
  exact hstart.symm.trans hcall

/-! ### No definition is found twice -/

variable {f p x}

/-- What `reachingFrom` finds was not visited before, so that it is found once. -/
theorem nodup_of_reachingFrom {visited pending found : List Node}
    (h : f.reachingFrom p x visited pending = .ok found) :
    found.Nodup ∧ ∀ d ∈ found, d ∉ visited := by
  induction visited, pending using reachingFrom.induct f generalizing found with
  | case1 visited =>
    rw [reachingFrom] at h
    cases h
    exact ⟨List.nodup_nil, List.forall_mem_nil _⟩
  | case2 visited n pending hn ih =>
    rw [reachingFrom, if_pos hn] at h
    exact ih h
  | case3 visited n pending hn hnone ih =>
    rw [reachingFrom, if_neg hn, if_pos hnone] at h
    exact (ih h).imp_right fun hnew d hd hmem => hnew d hd (List.mem_cons_of_mem n hmem)
  | case4 visited n pending hn hsome ihrecord ihinner =>
    rw [reachingFrom, if_neg hn, if_neg hsome] at h
    obtain ⟨b, -, h⟩ := bind_eq_ok.1 h
    cases b with
    | true =>
      -- the rest of the search counts this definition among the visited nodes
      obtain ⟨found', hfound, hcons⟩ := bind_eq_ok.1 h
      cases hcons
      obtain ⟨hnodup, hnew⟩ := ihrecord hfound
      refine ⟨List.nodup_cons.2 ⟨fun hmem => hnew n hmem List.mem_cons_self, hnodup⟩, ?_⟩
      intro d hd hmem
      rcases List.mem_cons.1 hd with rfl | hd
      · exact hn (List.contains_iff_mem.2 hmem)
      · exact hnew d hd (List.mem_cons_of_mem n hmem)
    | false =>
      exact (ihinner h).imp_right fun hnew d hd hmem => hnew d hd (List.mem_cons_of_mem n hmem)

theorem nodup_of_nearestDefinitions {r : Option Node} {found : List Node}
    (h : f.nearestDefinitions p r x = .ok found) : found.Nodup := by
  obtain ⟨ns, -, hsearch⟩ := bind_eq_ok.1 h
  exact (nodup_of_reachingFrom hsearch).1

/-- **The search with a stack is the recursive search.** On every flow graph, and for every source
of definitions: both give the same answer about every node and value, a list in the same order or
the same error. Where the look-ups do not fail, there is such a list for every node of the graph and
every variable, and no node is in it twice. -/
theorem nearestDefinitions_recursive (f : FlowGraph) (p : DefUse) :
    (∀ r x, f.nearestDefinitions p r x = f.tracedDefinitions p r x) ∧
      (p.Answers f → ∀ n ∈ f.nodes, ∀ x : Element, ∃ found : List Node,
        f.nearestDefinitions p (some n) x.val = .ok found ∧
          f.tracedDefinitions p (some n) x.val = .ok found ∧ found.Nodup) := by
  refine ⟨fun r x => f.nearestDefinitions_eq_traced p x r, fun hp n hn x => ?_⟩
  obtain ⟨found, hfound, -⟩ := nearestDefinitions_spec hp hn x
  refine ⟨found, hfound, ?_, nodup_of_nearestDefinitions hfound⟩
  rw [← nearestDefinitions_eq_traced, hfound]

end FlowGraph

/-- A loop with two ways through it, one of which sets the variable again. The search from the end
goes once around the loop, and comes back to nodes that it has visited. -/
def Listing.resetting : Listing where
  name := .text "resetting"
  instructions := (List.range 6).map fun i => some { ident := i, text := "", shown := "" }
  transitions := [.tuple [.int 0, .int 1], .tuple [.int 1, .int 2], .tuple [.int 1, .int 3],
    .tuple [.int 2, .int 4], .tuple [.int 3, .int 4], .tuple [.int 4, .int 1],
    .tuple [.int 4, .int 5]]
  definitions := .ofList [(.int 0, known), (.int 2, known)]
  uses := .ofList [(.int 5, known)]
where known : ValueSet := ValueSet.empty.insert ⟨.text "v", rfl⟩

/-- The definition inside the loop is found first, and the one before the loop after it. -/
theorem FlowGraph.nearestDefinitions_recursive_resetting :
    ∃ f n found, (build Listing.resetting.method 0 .none).result = .ok f ∧
      Listing.resetting.method.toDefUse.Answers f ∧ n ∈ f.nodes ∧
      f.nearestDefinitions Listing.resetting.method.toDefUse (some n) (.text "v") = .ok found ∧
      f.tracedDefinitions Listing.resetting.method.toDefUse (some n) (.text "v") = .ok found ∧
      found.Nodup ∧ found.map (·.instruction?.map (·.ident)) = [some 2, some 0] := by
  have heval : (do
      let f ← (build Listing.resetting.method 0 .none).result
      let found ← f.nearestDefinitions Listing.resetting.method.toDefUse f.nodes[7]? (.text "v")
      return (f.nodes[7]?.isSome, found.map (·.instruction?.map (·.ident))) :
        Except Error (Bool × List (Option Nat))) = .ok (true, [some 2, some 0]) := by
    cbv
  obtain ⟨f, hbuild, heval⟩ := bind_eq_ok.1 heval
  obtain ⟨found, hfound, heval⟩ := bind_eq_ok.1 heval
  obtain ⟨hsome, hidents⟩ := Prod.mk.inj (Except.ok.inj heval)
  obtain ⟨n, hn⟩ := Option.isSome_iff_exists.1 hsome
  rw [hn] at hfound
  have hmem : n ∈ f.nodes := List.mem_of_getElem? hn
  have hanswers := Listing.answers hbuild
  obtain ⟨found', hfound', htraced, hnodup⟩ :=
    (nearestDefinitions_recursive f Listing.resetting.method.toDefUse).2 hanswers n hmem
      ⟨.text "v", rfl⟩
  cases hfound.symm.trans hfound'
  exact ⟨f, n, found, hbuild, hanswers, hmem, hfound, htraced, hnodup, hidents⟩

end Dependence
