import Peg.Proofs.Grammar.Binding
import Peg.Proofs.Grammar.Digraph
import Peg.Proofs.Grammar.Exactness
import Peg.Proofs.Grammar.Nullable

/-!
# Nothing is looked up in vain

The analyses of a grammar look up a lot by number: verdicts, marks, edges, places on the path, names. And
they say what becomes of a number that stands for nothing, as of a call that leads nowhere. None of this
ever comes up where every call leads to a rule.

To say so, `Peg.Careful` has the same analyses with nothing to fall back on. Where something is not there,
neither is an answer. They have one for every resolved grammar, and it is the same
(`Peg.Careful.check_eq`): numbers come from the calls, and the lists that are looked up in have an entry
for each rule and keep their lengths.
-/

namespace Peg

open Peg.Digraph (Search Stop Visit)

namespace Careful

/-! ### Looking things up -/

/-- The list with another entry at a place that is there. -/
def put {α : Type} (l : List α) (i : Nat) (a : α) : Option (List α) :=
  if i < l.length then some (l.set i a) else none

/-- Whether the expression is nullable, if there is a verdict on every rule that is asked for. -/
def nullable (verdicts : List Bool) : Expr → Option Bool
  | .seq a b => do if ← nullable verdicts a then nullable verdicts b else return false
  | .alt a b => do if ← nullable verdicts a then return true else nullable verdicts b
  | .text s => some s.isEmpty
  | .char _ | .endOfInput | .range _ _ | .any => some false
  | .opt _ | .star _ | .ahead _ | .notAhead _ | .empty => some true
  | .plus a | .capture a => nullable verdicts a
  | .call r => do
    let id ← r.id
    verdicts[id]?

/-- Judges a rule that there is a verdict on. -/
def judge (s : Sweep) (id : RuleId) (b : Body) : Option Sweep := do
  if ← s.verdicts[id]? then return s
  match b with
  | .native _ => return s
  | .tree e =>
    if ← nullable s.verdicts e then
      return { verdicts := ← put s.verdicts id true, changed := true }
    else return s

/-- Goes through the rules once. -/
def sweep (g : Grammar) (verdicts : List Bool) : Option Sweep :=
  g.rules.zipIdx.foldlM (fun s r => judge s r.2 r.1.body) { verdicts }

/-- The verdicts after the last sweep. -/
def settle (g : Grammar) (rounds : Nat) (verdicts : List Bool) : Option (List Bool) :=
  match rounds with
  | 0 => none
  | rounds + 1 => do
    let s ← sweep g verdicts
    if s.changed then settle g rounds s.verdicts else return s.verdicts

/-- The verdicts on the rules. -/
def verdicts (g : Grammar) : Option (List Bool) :=
  settle g (g.size + 1) (List.replicate g.size false)

/-- Whether the node at the top repeats something nullable. -/
def repeatsNullable (verdicts : List Bool) : Expr → Option Bool
  | .star a | .plus a => nullable verdicts a
  | _ => some false

/-- Whether a tree repeats something nullable; every node is looked at. -/
def offends (verdicts : List Bool) : Body → Option Bool
  | .tree e =>
    e.nodes.foldlM (fun found n => do return found || (← repeatsNullable verdicts n)) false
  | .native _ => some false

/-- The left calls of the expression, none of which leads nowhere. -/
def leftCalls (verdicts : List Bool) : Expr → Option (List RuleId)
  | .seq a b => do
    let calls ← leftCalls verdicts a
    if ← nullable verdicts a then return calls ++ (← leftCalls verdicts b) else return calls
  | .alt a b => do return (← leftCalls verdicts a) ++ (← leftCalls verdicts b)
  | .opt a | .star a | .plus a | .ahead a | .notAhead a | .capture a => leftCalls verdicts a
  | .call r => do return [← r.id]
  | .text _ | .char _ | .endOfInput | .range _ _ | .any | .empty => some []

/-- The left calls of each rule. -/
def leftEdges (g : Grammar) (verdicts : List Bool) : Option (List (List RuleId)) :=
  g.rules.mapM fun d =>
    match d.body with
    | .tree e => leftCalls verdicts e
    | .native _ => some []

/-- The cycle that an edge to a node in progress closes, which has to be on the path. -/
def closing (s : Search) (node : Nat) : Option (List Nat) := do
  let first ← s.path.idxOf? node
  if first ≤ s.path.length then return s.path.drop first ++ [node] else none

/-- What is found where the search looks something up. -/
abbrev found {α : Type} (x : Option α) : ExceptT Stop Option α := .lift x

/-- Follows an edge to a node that has a mark. -/
def follow (visit : Search → Nat → ExceptT Stop Option Search) (s : Search) (next : Nat) :
    ExceptT Stop Option Search := do
  match ← found s.visits[next]? with
  | .inProgress => throw (.cycle (← found (closing s next)))
  | .unvisited => visit s next
  | .done => return s

/-- Searches from a node that has a mark and edges. -/
def visit (edges : List (List Nat)) (depth : Nat) (s : Search) (node : Nat) :
    ExceptT Stop Option Search :=
  match depth with
  | 0 => throw .tooDeep
  | depth + 1 => do
    let visits ← found (put s.visits node .inProgress)
    let targets ← found edges[node]?
    let s ← targets.foldlM (follow (visit edges depth)) { visits, path := s.path ++ [node] }
    return { visits := ← found (put s.visits node .done), path := s.path.dropLast }

/-- Searches from each node in turn that was not entered by then. -/
def scan (edges : List (List Nat)) (depth : Nat) : ExceptT Stop Option Search :=
  (List.range edges.length).foldlM
    (fun s node => do
      if (← found s.visits[node]?) = .unvisited then visit edges depth s node else return s)
    (.start edges.length)

/-- **The analyses of a grammar with nothing to fall back on**: where something that is looked up is not
there, a call leads nowhere or a bound is used up, there is no answer. -/
def check (g : Grammar) : Option (Except Defect Grammar) := do
  let v ← verdicts g
  match ← g.rules.findM? fun d => offends v d.body with
  | some d => return .error (.nullableRepetition d.name)
  | none =>
    let edges ← leftEdges g v
    match ← (scan edges edges.length).run with
    | .error (.cycle nodes) => return .error (.leftRecursion (← nodes.mapM g.name?))
    | .error .tooDeep => none
    | .ok _ => return .ok g

/-! ### Everything is there -/

variable {g : Grammar} {v : List Bool}

theorem put_eq {α : Type} {l : List α} {i : Nat} (h : i < l.length) (a : α) :
    put l i a = some (l.set i a) := if_pos h

theorem getElem?_eq_getD {α : Type} {l : List α} {i : Nat} (h : i < l.length) (a : α) :
    l[i]? = some (l.getD i a) := by
  rw [List.getD_eq_getElem?_getD, List.getElem?_eq_getElem h, Option.getD_some]

/-- What can be told of each element of a list can be told of all of them. -/
theorem mapM_eq {α β : Type} {f : α → Option β} {f' : α → β} {l : List α}
    (h : ∀ a ∈ l, f a = some (f' a)) : l.mapM f = some (l.map f') := by
  induction l with
  | nil => rfl
  | cons a l ih =>
    obtain ⟨ha, hl⟩ := List.forall_mem_cons.mp h
    rw [List.mapM_cons, ha, ih hl]
    rfl

theorem findM?_eq {α : Type} {f : α → Option Bool} {f' : α → Bool} {l : List α}
    (h : ∀ a ∈ l, f a = some (f' a)) : l.findM? f = some (l.find? f') := by
  induction l with
  | nil => rfl
  | cons a l ih =>
    obtain ⟨ha, hl⟩ := List.forall_mem_cons.mp h
    rw [List.findM?, ha, List.find?_cons]
    cases f' a with
    | false => exact ih hl
    | true => rfl

/-- What stands in a tree calls nothing but what the tree calls. -/
theorem binds_of_mem_nodes {e n : Expr} (he : g.Binds e) (hn : n ∈ e.nodes) : g.Binds n := by
  have hnodes : n.nodes ⊆ e.nodes := fun m hm =>
    Expr.mem_nodes_iff.mpr ((Expr.mem_nodes_iff.mp hn).trans (Expr.mem_nodes_iff.mp hm))
  exact fun r hr => he r (List.filterMap_subset _ hnodes hr)

section Verdicts

/-! There is a verdict on every rule. -/

variable (hl : v.length = g.size)
include hl

theorem nullable_eq {e : Expr} (he : g.Binds e) : nullable v e = some (e.nullable v) := by
  induction e with
  | seq a b iha ihb =>
    obtain ⟨ha, hb⟩ := Grammar.binds_seq.mp he
    rw [nullable, iha ha, ihb hb, Expr.nullable]
    cases a.nullable v <;> rfl
  | alt a b iha ihb =>
    obtain ⟨ha, hb⟩ := Grammar.binds_alt.mp he
    rw [nullable, iha ha, ihb hb, Expr.nullable]
    cases a.nullable v <;> rfl
  | plus a ih => exact ih he
  | capture a ih => exact ih he
  | call r =>
    obtain ⟨id, hid, hlt⟩ := Grammar.binds_call.mp he
    rw [nullable, Expr.nullable, hid]
    exact getElem?_eq_getD (hl ▸ hlt) false
  | _ => rfl

theorem offends_eq {b : Body} (hb : ∀ e, b = .tree e → g.Binds e) :
    offends v b = some (b.repeatsNullable v) := by
  cases b with
  | native start => rfl
  | tree e =>
    have hnode (n : Expr) (hn : n ∈ e.nodes) : repeatsNullable v n = some (n.repeatsNullable v) := by
      have hbinds := binds_of_mem_nodes (hb e rfl) hn
      cases n with
      | star a => exact nullable_eq hl hbinds
      | plus a => exact nullable_eq hl hbinds
      | _ => rfl
    -- the nodes are looked at one after the other
    have hfold (nodes : List Expr) (hnodes : ∀ n ∈ nodes, n ∈ e.nodes) (found : Bool) :
        nodes.foldlM (fun found n => do return found || (← repeatsNullable v n)) found =
          some (found || nodes.any (·.repeatsNullable v)) := by
      induction nodes generalizing found with
      | nil => simp
      | cons n nodes ih =>
        obtain ⟨hn, hnodes⟩ := List.forall_mem_cons.mp hnodes
        rw [List.foldlM_cons, hnode n hn, List.any_cons, ← Bool.or_assoc]
        exact ih hnodes _
    simpa [offends, Body.repeatsNullable] using hfold e.nodes (fun _ => id) false

theorem leftCalls_eq {e : Expr} (he : g.Binds e) : leftCalls v e = some (e.leftCalls v) := by
  induction e with
  | seq a b iha ihb =>
    obtain ⟨ha, hb⟩ := Grammar.binds_seq.mp he
    rw [leftCalls, iha ha, ihb hb, nullable_eq hl ha, Expr.leftCalls]
    cases a.nullable v
    · simp
    · rfl
  | alt a b iha ihb =>
    obtain ⟨ha, hb⟩ := Grammar.binds_alt.mp he
    rw [leftCalls, iha ha, ihb hb]
    rfl
  | opt a ih => exact ih he
  | star a ih => exact ih he
  | plus a ih => exact ih he
  | ahead a ih => exact ih he
  | notAhead a ih => exact ih he
  | capture a ih => exact ih he
  | call r =>
    obtain ⟨id, hid, -⟩ := Grammar.binds_call.mp he
    rw [leftCalls, Expr.leftCalls, hid]
    rfl
  | _ => rfl

end Verdicts

/-! ### Sweeps -/

section Sweeps

variable (hg : g.Resolved)
include hg

theorem judge_eq {s : Sweep} {id : RuleId} {b : Body} (hl : s.verdicts.length = g.size)
    (hb : g.body? id = some b) : judge s id b = some (s.judge id b) := by
  have hid : id < s.verdicts.length := hl ▸ Grammar.lt_size_of_body hb
  unfold judge
  rw [getElem?_eq_getD hid false, Sweep.judge]
  cases s.verdicts.getD id false with
  | true => rfl
  | false =>
    cases b with
    | native start => rfl
    | tree e =>
      have hnull : nullable s.verdicts e = some ((Body.tree e).nullable s.verdicts) :=
        nullable_eq hl (hg.binds_of_body hb)
      simp only [Option.bind_eq_bind, Option.bind_some, Bool.false_eq_true, if_false, hnull,
        put_eq hid]
      by_cases he : (Body.tree e).nullable s.verdicts = true
      · rw [if_pos he, if_pos he]
        rfl
      · rw [if_neg he, if_neg he]
        rfl

theorem judgeAll_eq {s : Sweep} {rules : List (Definition × RuleId)}
    (hl : s.verdicts.length = g.size) (h : ∀ r ∈ rules, g.body? r.2 = some r.1.body) :
    rules.foldlM (fun s r => judge s r.2 r.1.body) s = some (Sweep.judgeAll false rules s) := by
  induction rules generalizing s with
  | nil => rfl
  | cons r rules ih =>
    obtain ⟨hr, hrules⟩ := List.forall_mem_cons.mp h
    have hadv : Sweep.Advances g false s (s.judge r.2 r.1.body) :=
      Sweep.advances_judge hr (hl ▸ Grammar.lt_size_of_body hr)
    rw [List.foldlM_cons, judge_eq hg hl hr]
    exact ih (hadv.length.trans hl) hrules

theorem sweep_eq (hl : v.length = g.size) : sweep g v = some (g.sweep v) := by
  refine judgeAll_eq hg hl fun r hr => ?_
  rw [Grammar.body?, g.mem_zipIdx_rules.mp hr]
  rfl

theorem settle_eq {rounds : Nat} (hl : v.length = g.size) :
    settle g rounds v = g.settle? rounds v := by
  induction rounds generalizing v with
  | zero => rfl
  | succ rounds ih =>
    have hlength := (g.advances_sweep false hl).length.trans hl
    rw [settle, sweep_eq hg hl, Grammar.settle?]
    simp only [Option.bind_eq_bind, Option.bind_some, ih hlength]
    rfl

theorem verdicts_eq : verdicts g = some g.nullable := by
  rw [verdicts, settle_eq hg List.length_replicate]
  exact (g.settle?_nullable false).1

theorem leftEdges_eq : leftEdges g g.nullable = some g.leftEdges := by
  refine mapM_eq fun d hd => ?_
  rcases hbody : d.body with e | start
  · exact leftCalls_eq (g.length_nullable false) (hg d hd e hbody)
  · rfl

end Sweeps

/-! ### The search -/

section Search

variable {edges : List (List Nat)} {s : Search}

/-- A search that finds whatever it looks up. -/
def sure {α : Type} (x : Except Stop α) : ExceptT Stop Option α := .mk (some x)

theorem closing_eq {next : Nat} (h : next ∈ s.path) : closing s next = some (s.closing next) := by
  obtain ⟨i, hi⟩ : ∃ i, s.path.idxOf? next = some i :=
    Option.isSome_iff_exists.mp (by simpa using h)
  have hle : i ≤ s.path.length := by
    rw [List.idxOf?, List.findIdx?_eq_some_iff_getElem] at hi
    exact Nat.le_of_lt hi.1
  simp [closing, Search.closing, hi, hle]

/-- Every node of the graph has a mark. -/
theorem getElem?_visits (hs : s.Sound edges) {node : Nat} (h : node < edges.length) :
    s.visits[node]? = some (s.visitOf node) :=
  getElem?_eq_getD (hs.length ▸ h) .done

theorem follow_eq {visit' : Search → Nat → ExceptT Stop Option Search}
    {visit : Search → Nat → Except Stop Search} {next : Nat} (hs : s.Sound edges)
    (hnext : next < edges.length)
    (hvisit : s.visitOf next = .unvisited → visit' s next = sure (visit s next)) :
    follow visit' s next = sure (s.follow visit next) := by
  rw [follow, getElem?_visits hs hnext, Search.follow]
  cases hv : s.visitOf next with
  | inProgress =>
    have hpath := closing_eq ((hs.onPath next).mp hv)
    simp only [hpath]
    rfl
  | unvisited => exact hvisit hv
  | done => rfl

/-- Several searches one after the other. -/
theorem foldlM_eq {step : Search → Nat → Except Stop Search}
    {step' : Search → Nat → ExceptT Stop Option Search} {path targets : List Nat}
    (hstep : ∀ node ∈ targets, ∀ s : Search, s.Sound edges → s.path = path →
      step' s node = sure (step s node) ∧ Digraph.Ends edges [node] s (step s node))
    (hs : s.Sound edges) (hp : s.path = path) :
    targets.foldlM step' s = sure (targets.foldlM step s) := by
  induction targets generalizing s with
  | nil => rfl
  | cons node targets ih =>
    obtain ⟨hnode, hrest⟩ := List.forall_mem_cons.mp hstep
    obtain ⟨heq, hends⟩ := hnode s hs hp
    rw [List.foldlM_cons, List.foldlM_cons, heq]
    rcases hn : step s node with stop | mid <;> rw [hn] at hends
    · rfl
    · exact ih hrest hends.sound (hends.path.trans hp)

/-- **The search finds whatever it looks up**, if all edges lead to nodes. -/
theorem visit_eq (hedges : ∀ v w, Digraph.Edge edges v w → w < edges.length) {depth node : Nat}
    (hs : s.Sound edges) (hv : s.visitOf node = .unvisited)
    (he : ∀ last ∈ s.path.getLast?, Digraph.Edge edges last node)
    (hd : edges.length ≤ s.path.length + depth) :
    visit edges depth s node = sure (Digraph.visit edges depth s node) := by
  induction depth generalizing s node with
  | zero => rfl
  | succ depth ih =>
    have hlt : node < s.visits.length := Search.lt_length_of_visitOf (by simp [hv])
    have hnode : node < edges.length := hs.length ▸ hlt
    have hpath : (s.enter node).path = s.path ++ [node] := rfl
    have hstep (next : Nat) (hnext : next ∈ edges.getD node []) (t : Search) (ht : t.Sound edges)
        (htp : t.path = s.path ++ [node]) :
        follow (visit edges depth) t next = sure (t.follow (Digraph.visit edges depth) next) ∧
          Digraph.Ends edges [next] t (t.follow (Digraph.visit edges depth) next) := by
      have hlast : t.path.getLast? = some node := by rw [htp, List.getLast?_concat]
      have hedge (v : Nat) (hv : v ∈ t.path.getLast?) : Digraph.Edge edges v next := by
        rw [hlast, Option.mem_some_iff] at hv
        exact hv ▸ hnext
      have hroom : edges.length ≤ t.path.length + depth := by
        rw [htp, List.length_append, List.length_singleton]
        omega
      constructor
      · exact follow_eq ht (hedges node next hnext) fun hnew => ih ht hnew hedge hroom
      · exact Digraph.ends_follow ht hlast hnext fun hnew => Digraph.ends_visit ht hnew hedge hroom
    have hfold := foldlM_eq hstep (hs.enter hv he) hpath
    have hends := Digraph.ends_foldlM (fun next hnext t ht htp => (hstep next hnext t ht htp).2)
      (hs.enter hv he) hpath
    rw [visit, Digraph.visit, put_eq hlt, getElem?_eq_getD hnode []]
    change (do
        let t ← (edges.getD node []).foldlM (follow (visit edges depth)) (s.enter node)
        return { visits := ← found (put t.visits node .done), path := t.path.dropLast } :
          ExceptT Stop Option Search) = _
    rw [hfold]
    rcases hr : (edges.getD node []).foldlM (Search.follow (Digraph.visit edges depth))
      (s.enter node) with stop | t <;> rw [hr] at hends
    · rfl
    · have hdone := put_eq (hends.sound.length.symm ▸ hnode : node < t.visits.length) Visit.done
      change (do
          return { visits := ← found (put t.visits node .done), path := t.path.dropLast } :
            ExceptT Stop Option Search) = _
      rw [hdone]
      rfl

theorem scan_eq (hedges : ∀ v w, Digraph.Edge edges v w → w < edges.length) {depth : Nat}
    (hd : edges.length ≤ depth) : scan edges depth = sure (Digraph.scan edges depth) := by
  have hpath : (Search.start edges.length).path = [] := rfl
  refine foldlM_eq (fun node hnode s hs hp => ?_) (.start edges) hpath
  refine ⟨?_, Digraph.ends_of_path_nil hs hp hd node⟩
  rw [getElem?_visits hs (List.mem_range.mp hnode)]
  change (if s.visitOf node = .unvisited then visit edges depth s node else sure (.ok s)) = _
  split
  · rename_i hv
    exact visit_eq hedges hs hv (by simp [hp]) (by omega)
  · rfl

end Search

/-! ### The analyses -/

/-- The left calls of a tree are of rules. -/
theorem lt_size_of_mem_leftCalls {e : Expr} (he : g.Binds e) {i : RuleId} (hi : i ∈ e.leftCalls v) :
    i < g.size := by
  induction e with
  | seq a b iha ihb =>
    obtain ⟨ha, hb⟩ := Grammar.binds_seq.mp he
    rw [Expr.leftCalls, List.mem_append] at hi
    rcases hi with hi | hi
    · exact iha ha hi
    · split at hi
      · exact ihb hb hi
      · cases hi
  | alt a b iha ihb =>
    obtain ⟨ha, hb⟩ := Grammar.binds_alt.mp he
    exact (List.mem_append.mp hi).elim (iha ha) (ihb hb)
  | opt a ih => exact ih he hi
  | star a ih => exact ih he hi
  | plus a ih => exact ih he hi
  | ahead a ih => exact ih he hi
  | notAhead a ih => exact ih he hi
  | capture a ih => exact ih he hi
  | call r =>
    obtain ⟨id, hid, hlt⟩ := Grammar.binds_call.mp he
    rw [Expr.leftCalls, hid] at hi
    exact List.mem_singleton.mp hi ▸ hlt
  | _ => cases hi

/-- The edges of the graph that is searched lead to rules. -/
theorem lt_length_of_edge (hg : g.Resolved) {i j : RuleId} (h : Digraph.Edge g.leftEdges i j) :
    j < g.leftEdges.length := by
  have hi : i < g.rules.length := by
    rw [← List.length_map (·.body.leftCalls (g.nullable false) false)]
    exact Digraph.lt_length_of_edge h
  have hj : j ∈ g.rules[i].body.leftCalls g.nullable := by
    simpa [Digraph.Edge, Grammar.leftEdges, hi] using h
  rw [Grammar.leftEdges, List.length_map]
  rcases hbody : g.rules[i].body with e | start <;> rw [hbody] at hj
  · exact lt_size_of_mem_leftCalls (hg _ (List.getElem_mem hi) e hbody) hj
  · cases hj

/-- The rules of a cycle have names. -/
theorem names_eq {cycle : List RuleId} (h : Digraph.IsCycle g.leftEdges cycle) :
    cycle.mapM g.name? = some (cycle.map g.nameOf) := by
  refine mapM_eq fun id hid => ?_
  have hlt : id < g.rules.length := by simpa [Grammar.leftEdges] using h.lt_length hid
  rw [Grammar.nameOf, Grammar.name?, List.getElem?_eq_getElem hlt]
  rfl

/-- **Of a resolved grammar nothing is looked up in vain**, and the analyses answer what they answer. -/
theorem check_eq (hg : g.Resolved) : check g = some g.check := by
  have hfind : g.rules.findM? (fun d => offends g.nullable d.body) = some g.nullableRepetition? :=
    findM?_eq fun d hd => offends_eq (g.length_nullable false) (hg d hd)
  rw [check, verdicts_eq hg, Grammar.check]
  simp only [Option.bind_eq_bind, Option.bind_some, hfind]
  rcases g.nullableRepetition? with _ | d
  · have hscan : (scan g.leftEdges g.leftEdges.length).run =
        some (Digraph.scan g.leftEdges g.leftEdges.length) :=
      scan_eq (fun _ _ => lt_length_of_edge hg) (Nat.le_refl _)
    have hends := Digraph.ends_scan (Nat.le_refl g.leftEdges.length)
    simp only [leftEdges_eq hg, Option.bind_some, hscan, Grammar.leftRecursion?, Digraph.cycle?]
    rcases hs : Digraph.scan g.leftEdges g.leftEdges.length with (nodes | _) | t <;> rw [hs] at hends
    · simp only [names_eq hends]
      rfl
    · exact hends.elim
    · rfl
  · rfl

end Careful

end Peg
