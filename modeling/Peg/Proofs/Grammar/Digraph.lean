import Mathlib.Data.List.Chain
import Mathlib.Data.List.Nodup
import Mathlib.Data.List.Perm.Subperm
import Mathlib.Logic.Relation
import Peg.Grammar.Digraph

/-!
# The search for cycles

Three things are true of the search at every moment (`Peg.Digraph.Search.Sound`). The nodes in progress
are the path, without repetition and each with an edge to the next. The nodes that are done lead to
nodes that are done. And no cycle goes through a node that is done.

So an edge to a node in progress closes a cycle (`Peg.Digraph.Search.Sound.isCycle_closing`). A node is
left when everything its edges lead to is done; a cycle through it would lead back to it through nodes
that were done before, and it was not (`Peg.Digraph.Search.Sound.leave`). The nodes on the path are
different nodes of the graph, so a depth of as many as there are is enough
(`Peg.Digraph.ends_visit`). What the search finds is therefore exact (`Peg.Digraph.cycle?_exact`): it
comes to an end, and what it reports is a cycle if there is one and nothing otherwise.
-/

namespace Peg.Digraph

variable {edges : List (List Nat)}

/-- An edge of the graph. -/
def Edge (edges : List (List Nat)) (v w : Nat) : Prop := w ∈ edges.getD v []

/-- Edges begin at the nodes of the graph. -/
theorem lt_length_of_edge {v w : Nat} (h : Edge edges v w) : v < edges.length := by
  refine Nat.lt_of_not_le fun hge => ?_
  simp [Edge, List.getElem?_eq_none hge] at h

/-- The nodes of a cycle, each with an edge to the next; the first is repeated at the end, and
otherwise all are different. -/
structure IsCycle (edges : List (List Nat)) (cycle : List Nat) : Prop where
  closed : ∃ node inner, cycle = node :: (inner ++ [node])
  distinct : cycle.tail.Nodup
  edge : cycle.IsChain (Edge edges)

/-- From each node of a cycle there is a way back to it, as there is for the first. -/
theorem IsCycle.exists_path {cycle : List Nat} (h : IsCycle edges cycle) :
    ∃ node, Relation.TransGen (Edge edges) node node := by
  obtain ⟨node, inner, rfl⟩ := h.closed
  have hchain := h.edge.imp fun _ _ he => Relation.TransGen.single he
  exact ⟨node, hchain.rel_cons (List.mem_append_right _ (List.mem_singleton_self node))⟩

/-- What is on a cycle is a node of the graph. -/
theorem IsCycle.lt_length {cycle : List Nat} (h : IsCycle edges cycle) {v : Nat} (hv : v ∈ cycle) :
    v < edges.length := by
  obtain ⟨node, inner, rfl⟩ := h.closed
  have hmem : v ∈ node :: inner := by
    rcases List.mem_append.mp (List.cons_append.symm ▸ hv) with hv | hv
    · exact hv
    · exact List.mem_singleton.mp hv ▸ List.mem_cons_self
  obtain ⟨before, after, hsplit⟩ := List.append_of_mem hmem
  have hchain := h.edge
  rw [← List.cons_append, hsplit, List.append_assoc] at hchain
  -- there is an edge from it to the next
  cases after with
  | nil => exact lt_length_of_edge (List.isChain_cons_cons.mp hchain.right_of_append).1
  | cons next after => exact lt_length_of_edge (List.isChain_cons_cons.mp hchain.right_of_append).1

namespace Search

variable {s t : Search} {node next v : Nat}

/-! ### Marks -/

/-- A node that is not done is one of the graph. -/
theorem lt_length_of_visitOf (h : s.visitOf v ≠ .done) : v < s.visits.length := by
  refine Nat.lt_of_not_le fun hge => h ?_
  rw [visitOf, List.getD_eq_getElem?_getD, List.getElem?_eq_none hge, Option.getD_none]

theorem getD_set (visits : List Visit) (mark : Visit) (h : node < visits.length) :
    (visits.set node mark).getD v .done = if v = node then mark else visits.getD v .done := by
  rw [List.getD_eq_getElem?_getD, List.getD_eq_getElem?_getD, List.getElem?_set]
  by_cases hv : v = node
  · subst hv
    simp [h]
  · rw [if_neg (Ne.symm hv), if_neg hv]

theorem visitOf_enter (h : node < s.visits.length) :
    (s.enter node).visitOf v = if v = node then .inProgress else s.visitOf v :=
  getD_set s.visits .inProgress h

theorem visitOf_leave (h : node < s.visits.length) :
    (s.leave node).visitOf v = if v = node then .done else s.visitOf v :=
  getD_set s.visits .done h

theorem visitOf_start (size v : Nat) :
    (start size).visitOf v = if v < size then .unvisited else .done := by
  rw [visitOf, start, List.getD_eq_getElem?_getD, List.getElem?_replicate]
  split <;> rfl

/-! ### What holds at every moment -/

/-- **What holds of a search at every moment.** -/
structure Sound (edges : List (List Nat)) (s : Search) : Prop where
  /-- Every node of the graph has a mark. -/
  length : s.visits.length = edges.length
  /-- The path is what is in progress. -/
  onPath : ∀ v, s.visitOf v = .inProgress ↔ v ∈ s.path
  /-- No node is on the path twice. -/
  distinct : s.path.Nodup
  /-- There is an edge from each node of the path to the next. -/
  edge : s.path.IsChain (Edge edges)
  /-- What is done leads to what is done. -/
  closed : ∀ v w, s.visitOf v = .done → Edge edges v w → s.visitOf w = .done
  /-- No cycle goes through what is done. -/
  acyclic : ∀ v, s.visitOf v = .done → ¬Relation.TransGen (Edge edges) v v

namespace Sound

/-- Nothing is done before the search begins, except for numbers that are no nodes. -/
theorem start (edges : List (List Nat)) : (Search.start edges.length).Sound edges where
  length := List.length_replicate
  onPath v := by
    rw [visitOf_start]
    split <;> simp [Search.start]
  distinct := List.nodup_nil
  edge := .nil
  closed v w hv he := by simp [visitOf_start, lt_length_of_edge he] at hv
  acyclic v hv hcycle := by
    obtain ⟨w, he, -⟩ := Relation.TransGen.head'_iff.mp hcycle
    simp [visitOf_start, lt_length_of_edge he] at hv

/-- There is room on the path for a node that was not entered. -/
theorem length_path_lt (h : s.Sound edges) (hv : s.visitOf node = .unvisited) :
    s.path.length < edges.length := by
  have hlt (v : Nat) (hv : s.visitOf v ≠ .done) : v < edges.length :=
    h.length ▸ lt_length_of_visitOf hv
  have hnodup : (node :: s.path).Nodup :=
    List.nodup_cons.mpr ⟨fun hmem => by simp [(h.onPath node).mpr hmem] at hv, h.distinct⟩
  have hle : (node :: s.path).length ≤ (List.range edges.length).length := by
    refine (hnodup.subperm fun v hmem => List.mem_range.mpr (hlt v ?_)).length_le
    rcases List.mem_cons.mp hmem with rfl | hmem
    · simp [hv]
    · simp [(h.onPath v).mpr hmem]
  simpa [Nat.succ_le_iff] using hle

/-- A node is entered along an edge from the one that was entered last, if there is one. -/
theorem enter (h : s.Sound edges) (hv : s.visitOf node = .unvisited)
    (he : ∀ last ∈ s.path.getLast?, Edge edges last node) : (s.enter node).Sound edges := by
  have hvisit (v : Nat) : (s.enter node).visitOf v = if v = node then .inProgress else s.visitOf v :=
    visitOf_enter (lt_length_of_visitOf (by simp [hv]))
  have hnew : node ∉ s.path := fun hmem => by simp [(h.onPath node).mpr hmem] at hv
  -- entering a node makes nothing done
  have hdone (v : Nat) : (s.enter node).visitOf v = .done ↔ s.visitOf v = .done := by
    rw [hvisit]
    split
    · simp_all
    · rfl
  refine ⟨List.length_set.trans h.length, fun v => ?_, ?_, ?_, fun v w hv he => ?_, fun v hv => ?_⟩
  · rw [hvisit, Search.enter, List.mem_append, List.mem_singleton, ← h.onPath]
    split <;> simp_all
  · rw [Search.enter, ← List.concat_eq_append]
    exact h.distinct.concat hnew
  · exact List.isChain_append.mpr ⟨h.edge, .singleton node, by simpa using he⟩
  · exact (hdone w).mpr (h.closed v w ((hdone v).mp hv) he)
  · exact h.acyclic v ((hdone v).mp hv)

theorem done_of_path {w : Nat} (h : s.Sound edges) (hv : s.visitOf v = .done)
    (hp : Relation.ReflTransGen (Edge edges) v w) : s.visitOf w = .done := by
  induction hp with
  | refl => exact hv
  | tail _ he ih => exact h.closed _ _ ih he

/-- **A node may be left when everything its edges lead to is done.** -/
theorem leave {path : List Nat} (h : s.Sound edges) (hp : s.path = path ++ [node])
    (hdone : ∀ w, Edge edges node w → s.visitOf w = .done) : (s.leave node).Sound edges := by
  have hopen : s.visitOf node = .inProgress := (h.onPath node).mpr (by simp [hp])
  have hvisit (v : Nat) : (s.leave node).visitOf v = if v = node then .done else s.visitOf v :=
    visitOf_leave (lt_length_of_visitOf (by simp [hopen]))
  have hkeeps (v : Nat) (hv : s.visitOf v = .done) : (s.leave node).visitOf v = .done := by
    rw [hvisit, hv, ite_self]
  have hpath : (s.leave node).path = path := by rw [Search.leave, hp, List.dropLast_concat]
  have hdistinct : path.Nodup ∧ node ∉ path := by
    have := h.distinct
    rw [hp, List.nodup_append] at this
    exact ⟨this.1, fun hmem => this.2.2 node hmem node (List.mem_singleton_self node) rfl⟩
  refine ⟨List.length_set.trans h.length, fun v => ?_, hpath ▸ hdistinct.1, ?_,
    fun v w hv he => hkeeps w ?_, fun v hv hcycle => ?_⟩
  · rw [hvisit, hpath]
    split
    · simp_all
    · rw [h.onPath, hp]
      simp_all
  · have hedge := h.edge
    rw [hp] at hedge
    exact hpath ▸ hedge.left_of_append
  · rw [hvisit] at hv
    split at hv
    · rename_i heq
      exact hdone w (heq ▸ he)
    · exact h.closed v w hv he
  · rw [hvisit] at hv
    split at hv
    · rename_i heq
      subst heq
      -- the way back to the node would lead through what was done before it
      obtain ⟨w, he, hback⟩ := Relation.TransGen.head'_iff.mp hcycle
      simp [h.done_of_path (hdone w he) hback] at hopen
    · exact h.acyclic v hv hcycle

/-- **An edge to a node in progress closes a cycle.** -/
theorem isCycle_closing {last : Nat} (h : s.Sound edges) (hv : s.visitOf next = .inProgress)
    (hlast : s.path.getLast? = some last) (he : Edge edges last next) :
    IsCycle edges (s.closing next) := by
  -- the nodes from the first place where it stands on were entered after it
  obtain ⟨before, after, hpath, hbefore⟩ := List.eq_append_cons_of_mem ((h.onPath next).mp hv)
  have hindex : s.path.idxOf? next = some before.length := by
    rw [List.idxOf?, List.findIdx?_eq_some_iff_getElem]
    refine ⟨by simp [hpath], by simp [hpath], fun j hj => ?_⟩
    have hne : before[j] ≠ next := fun heq => hbefore (heq ▸ List.getElem_mem hj)
    simpa [hpath, List.getElem_append_left hj] using hne
  have hclosing : s.closing next = next :: (after ++ [next]) := by
    rw [closing, hindex, Option.getD_some, hpath, List.drop_left]
    rfl
  have hsuffix : (next :: after).Nodup := by
    have := h.distinct
    rw [hpath] at this
    exact (List.nodup_append.mp this).2.1
  rw [hclosing]
  refine ⟨⟨next, after, rfl⟩, ?_, ?_⟩
  · rw [List.tail_cons, ← List.concat_eq_append]
    exact (List.nodup_cons.mp hsuffix).2.concat (List.nodup_cons.mp hsuffix).1
  · have hchain := h.edge
    rw [hpath] at hchain
    have hend : (next :: after).getLast? = some last := by
      rwa [hpath, List.getLast?_append_of_ne_nil _ (List.cons_ne_nil next after)] at hlast
    exact List.isChain_append.mpr ⟨hchain.right_of_append, .singleton next, by simp [hend, he]⟩

end Sound

end Search

/-! ### What the search comes to -/

/-- The search has come from the first state to the second one, where it is on the same path, and the
targets are done. -/
structure Finishes (edges : List (List Nat)) (targets : List Nat) (s t : Search) : Prop where
  sound : t.Sound edges
  path : t.path = s.path
  keeps : ∀ v, s.visitOf v = .done → t.visitOf v = .done
  reaches : ∀ v ∈ targets, t.visitOf v = .done

/-- A search may stop because of a cycle, but not because it is too deep. -/
def Stop.Justified (edges : List (List Nat)) : Stop → Prop
  | .cycle nodes => IsCycle edges nodes
  | .tooDeep => False

/-- **How a search for the targets may end**: it stops with a cycle, or the targets are done. -/
def Ends (edges : List (List Nat)) (targets : List Nat) (s : Search) :
    Except Stop Search → Prop
  | .error stop => stop.Justified edges
  | .ok t => Finishes edges targets s t

/-- Several searches one after the other. -/
theorem ends_foldlM {step : Search → Nat → Except Stop Search} {path targets : List Nat}
    (hstep : ∀ node ∈ targets, ∀ s, s.Sound edges → s.path = path →
      Ends edges [node] s (step s node))
    {s : Search} (hs : s.Sound edges) (hp : s.path = path) :
    Ends edges targets s (targets.foldlM step s) := by
  induction targets generalizing s with
  | nil => exact ⟨hs, rfl, fun _ h => h, by simp⟩
  | cons node targets ih =>
    obtain ⟨hnode, hrest⟩ := List.forall_mem_cons.mp hstep
    have hfirst := hnode s hs hp
    rw [List.foldlM_cons]
    rcases hn : step s node with stop | mid <;> rw [hn] at hfirst
    · exact hfirst
    · have hmid := ih hrest hfirst.sound (hfirst.path.trans hp)
      change Ends edges (node :: targets) s (targets.foldlM step mid)
      rcases hr : targets.foldlM step mid with stop | last <;> rw [hr] at hmid
      · exact hmid
      · refine ⟨hmid.sound, hmid.path.trans hfirst.path, fun v hv => hmid.keeps v (hfirst.keeps v hv),
          List.forall_mem_cons.mpr ⟨?_, hmid.reaches⟩⟩
        exact hmid.keeps node (hfirst.reaches node (List.mem_singleton_self node))

/-- Following an edge from the node that was entered last. -/
theorem ends_follow {visit : Search → Nat → Except Stop Search} {s : Search} {last next : Nat}
    (hs : s.Sound edges) (hlast : s.path.getLast? = some last) (he : Edge edges last next)
    (hvisit : s.visitOf next = .unvisited → Ends edges [next] s (visit s next)) :
    Ends edges [next] s (s.follow visit next) := by
  rw [Search.follow]
  cases hv : s.visitOf next with
  | inProgress => exact hs.isCycle_closing hv hlast he
  | unvisited => exact hvisit hv
  | done => exact ⟨hs, rfl, fun _ h => h, by simpa using hv⟩

/-- **A search from a node that was not entered ends**, given a depth of as many nodes as the path still
has room for. -/
theorem ends_visit {depth : Nat} {s : Search} {node : Nat} (hs : s.Sound edges)
    (hv : s.visitOf node = .unvisited) (he : ∀ last ∈ s.path.getLast?, Edge edges last node)
    (hd : edges.length ≤ s.path.length + depth) :
    Ends edges [node] s (visit edges depth s node) := by
  have hroom := hs.length_path_lt hv
  induction depth generalizing s node with
  | zero => omega
  | succ depth ih =>
    have hpath : (s.enter node).path = s.path ++ [node] := rfl
    -- the edges are followed with the node at the end of the path
    have hfollow : Ends edges (edges.getD node []) (s.enter node)
        ((edges.getD node []).foldlM (Search.follow (visit edges depth)) (s.enter node)) := by
      refine ends_foldlM (fun next hnext t ht htp => ?_) (hs.enter hv he) hpath
      have hlast : t.path.getLast? = some node := by rw [htp, List.getLast?_concat]
      refine ends_follow ht hlast hnext fun hnew => ?_
      have hedge (v : Nat) (hv : v ∈ t.path.getLast?) : Edge edges v next := by
        rw [hlast, Option.mem_some_iff] at hv
        exact hv ▸ hnext
      refine ih ht hnew hedge ?_ (ht.length_path_lt hnew)
      rw [htp, List.length_append, List.length_singleton]
      omega
    rw [visit]
    rcases hr : (edges.getD node []).foldlM (Search.follow (visit edges depth)) (s.enter node) with
      stop | t <;> rw [hr] at hfollow
    · exact hfollow
    · have hnode : node < t.visits.length := by
        rw [hfollow.sound.length, ← hs.length]
        exact Search.lt_length_of_visitOf (by simp [hv])
      refine ⟨hfollow.sound.leave (hfollow.path.trans hpath) hfollow.reaches, ?_, fun v hold => ?_, ?_⟩
      · change t.path.dropLast = s.path
        rw [hfollow.path, hpath, List.dropLast_concat]
      · have hne : v ≠ node := fun heq => by simp [← heq, hold] at hv
        rw [Search.visitOf_leave hnode, if_neg hne]
        refine hfollow.keeps v ?_
        rw [Search.visitOf_enter (Search.lt_length_of_visitOf (by simp [hv])), if_neg hne, hold]
      · refine List.forall_mem_singleton.mpr ?_
        rw [Search.visitOf_leave hnode, if_pos rfl]

/-- Where nothing is in progress, a search from a node ends, also if the node was entered before. -/
theorem ends_of_path_nil {depth : Nat} {s : Search} (hs : s.Sound edges) (hp : s.path = [])
    (hd : edges.length ≤ depth) (node : Nat) :
    Ends edges [node] s
      (if s.visitOf node = .unvisited then visit edges depth s node else .ok s) := by
  split
  · rename_i hv
    exact ends_visit hs hv (by simp [hp]) (by omega)
  · rename_i hv
    refine ⟨hs, rfl, fun _ h => h, List.forall_mem_singleton.mpr ?_⟩
    -- the node was entered before and left, as nothing is in progress here
    cases hmark : s.visitOf node with
    | unvisited => exact absurd hmark hv
    | inProgress => simpa [hp] using (hs.onPath node).mp hmark
    | done => rfl

/-- **The search of the whole graph ends**, at a depth of as many nodes as there are. -/
theorem ends_scan {depth : Nat} (hd : edges.length ≤ depth) :
    Ends edges (List.range edges.length) (.start edges.length) (scan edges depth) :=
  ends_foldlM (fun node _ _ hs hp => ends_of_path_nil hs hp hd node) (.start edges) rfl

/-- **What is reported is a cycle.** -/
theorem isCycle_of_cycle? {cycle : List Nat} (h : cycle? edges = some cycle) :
    IsCycle edges cycle := by
  have hends := ends_scan (Nat.le_refl edges.length)
  rw [cycle?] at h
  rcases hs : scan edges edges.length with (nodes | _) | t <;> rw [hs] at h hends
  · obtain rfl := Option.some.inj h
    exact hends
  · cases h
  · cases h

/-- **Where the search reports no cycle there is none.** -/
theorem acyclic_of_cycle? (h : cycle? edges = none) (v : Nat) :
    ¬Relation.TransGen (Edge edges) v v := by
  have hends := ends_scan (Nat.le_refl edges.length)
  intro hcycle
  obtain ⟨next, he, -⟩ := Relation.TransGen.head'_iff.mp hcycle
  rw [cycle?] at h
  rcases hs : scan edges edges.length with (nodes | _) | t <;> rw [hs] at h hends
  · cases h
  · exact hends
  · exact hends.sound.acyclic v (hends.reaches v (List.mem_range.mpr (lt_length_of_edge he))) hcycle

/-- **The search for cycles is exact.** On every graph it comes to an end, at any depth from the number
of nodes on; it reports a cycle exactly if there is a way from some node back to it; and what it reports
are two nodes or more, the first one again at the end and otherwise all different, with an edge from
each to the next. -/
theorem cycle?_exact (edges : List (List Nat)) :
    (∀ depth, edges.length ≤ depth → scan edges depth ≠ .error .tooDeep) ∧
      ((∃ cycle, cycle? edges = some cycle) ↔ ∃ v, Relation.TransGen (Edge edges) v v) ∧
      ∀ cycle, cycle? edges = some cycle →
        2 ≤ cycle.length ∧ cycle.head? = cycle.getLast? ∧ cycle.tail.Nodup ∧
          cycle.IsChain (Edge edges) := by
  refine ⟨fun depth hd h => ?_, ⟨?_, ?_⟩, fun cycle h => ?_⟩
  · have hends := ends_scan hd
    rw [h] at hends
    exact hends
  · rintro ⟨cycle, h⟩
    exact (isCycle_of_cycle? h).exists_path
  · rintro ⟨v, hcycle⟩
    rcases h : cycle? edges with _ | cycle
    · exact absurd hcycle (acyclic_of_cycle? h v)
    · exact ⟨cycle, rfl⟩
  · obtain ⟨⟨node, inner, rfl⟩, hdistinct, hedge⟩ := isCycle_of_cycle? h
    exact ⟨by simp, by simp [List.getLast?_cons], hdistinct, hedge⟩

/-- Two cycles with a node in common: the search reports the one that it runs into first. -/
example : cycle? [[1], [2, 0], [3], [1]] = some [1, 2, 3, 1] := by decide

end Peg.Digraph
