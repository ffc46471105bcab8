import Mathlib.Data.List.MinMax
import Mathlib.Data.List.Sort
import Sithnapse.Kit.Chain
import Sithnapse.Kit.Loop

/-! The greedy order of a graph.

    A node is ready once everything it depends on has come; the greedy order always takes the ready
    node with the least key. If different nodes have different keys there is only one such order,
    whatever way the graph is written down. A graph without edges is sorted by its keys. -/

namespace Kit
open List

variable {α κ : Type} [LinearOrder κ]

/-- A node that has not come yet, all of whose dependencies have. -/
def Ready (nodes : α → Prop) (deps : α → α → Prop) (done : List α) (x : α) : Prop :=
  nodes x ∧ x ∉ done ∧ ∀ y, deps x y → y ∈ done

/-- The least ready node comes next, until none is ready. -/
def Greedy (nodes : α → Prop) (deps : α → α → Prop) (key : α → κ) : List α → List α → Prop
  | done, [] => ∀ x, ¬ Ready nodes deps done x
  | done, x :: l => Ready nodes deps done x ∧ (∀ y, Ready nodes deps done y → key x ≤ key y) ∧
      Greedy nodes deps key (done ++ [x]) l

variable {nodes : α → Prop} {deps : α → α → Prop} {key : α → κ}

/-- There is only one greedy order. -/
theorem Greedy.unique (hkey : ∀ x y, nodes x → nodes y → key x = key y → x = y) :
    ∀ {l l' done : List α}, Greedy nodes deps key done l → Greedy nodes deps key done l' → l = l'
  | [], [], _, _, _ => rfl
  | [], y :: _, _, h, h' => absurd h'.1 (h y)
  | x :: _, [], _, h, h' => absurd h.1 (h' x)
  | x :: l, y :: l', done, h, h' => by
    obtain rfl : x = y :=
      hkey x y h.1.1 h'.1.1 (le_antisymm (h.2.1 y h'.1) (h'.2.1 x h.1))
    rw [h.2.2.unique hkey h'.2.2]

/-- The order depends on the nodes, and on the edges and the keys of the nodes only. -/
theorem Greedy.congr {nodes' : α → Prop} {deps' : α → α → Prop} {key' : α → κ}
    (hnodes : ∀ x, nodes x ↔ nodes' x) (hdeps : ∀ x, nodes x → ∀ y, deps x y ↔ deps' x y)
    (hkey : ∀ x, nodes x → key x = key' x) : ∀ {l done : List α},
    Greedy nodes deps key done l → Greedy nodes' deps' key' done l := by
  have hready : ∀ done x, Ready nodes deps done x ↔ Ready nodes' deps' done x := by
    intro done x
    rw [Ready, Ready, ← hnodes]
    exact and_congr_right fun hx => and_congr_right fun _ => forall_congr' fun y => by rw [hdeps x hx]
  intro l
  induction l with
  | nil => exact fun h x hx => h x ((hready _ x).mpr hx)
  | cons x l ih =>
    rintro done ⟨hx, hmin, hl⟩
    refine ⟨(hready _ x).mp hx, fun y hy => ?_, ih hl⟩
    have hy' := (hready done y).mpr hy
    rw [← hkey x hx.1, ← hkey y hy'.1]
    exact hmin y hy'

/-- Ready nodes one after the other, until none is ready. -/
structure Topological (nodes : α → Prop) (deps : α → α → Prop) (done l : List α) : Prop where
  ready : ∀ pre x post, l = pre ++ x :: post → Ready nodes deps (done ++ pre) x
  stuck : ∀ x, ¬ Ready nodes deps (done ++ l) x

section Topological

variable {x : α} {l l' done : List α}

theorem Topological.cons (hx : Ready nodes deps done x) (h : Topological nodes deps (done ++ [x]) l) :
    Topological nodes deps done (x :: l) := by
  refine ⟨fun pre y post hl => ?_, by simpa using h.stuck⟩
  cases pre with
  | nil =>
    obtain ⟨rfl, -⟩ := List.cons.inj hl
    rwa [append_nil]
  | cons z pre =>
    obtain rfl := (List.cons.inj hl).1
    simpa using h.ready pre y post (List.cons.inj hl).2

theorem Topological.append : ∀ {b done : List α}, b.Nodup → (∀ x ∈ b, Ready nodes deps done x) →
    Topological nodes deps (done ++ b) l → Topological nodes deps done (b ++ l)
  | [], done, _, _, h => by simpa using h
  | x :: b, done, hb, hready, h => by
    rw [nodup_cons] at hb
    refine .cons (hready x (.head _)) (Topological.append hb.2 (fun y hy => ?_) (by simpa using h))
    obtain ⟨hn, hd, hdeps⟩ := hready y (.tail _ hy)
    refine ⟨hn, ?_, fun z hz => mem_append_left _ (hdeps z hz)⟩
    simpa using ⟨hd, fun hyx => hb.1 (hyx ▸ hy)⟩

theorem Topological.tail (h : Topological nodes deps done (x :: l)) : Topological nodes deps (done ++ [x]) l :=
  ⟨fun pre y post hl => by simpa using h.ready (x :: pre) y post (by rw [hl]; rfl), by simpa using h.stuck⟩

theorem Greedy.topological : ∀ {l done : List α}, Greedy nodes deps key done l → Topological nodes deps done l
  | [], _, h => ⟨by simp, by simpa [Greedy] using h⟩
  | _ :: _, _, h => .cons h.1 h.2.2.topological

/-- The greedy order comes first among all: where it leaves another order, it takes a lesser key. -/
theorem Greedy.least (hkey : ∀ x y, nodes x → nodes y → key x = key y → x = y) : ∀ {l l' done : List α},
    Greedy nodes deps key done l → Topological nodes deps done l' → l = l' ∨ Lex (· < ·) (l.map key) (l'.map key)
  | [], [], _, _, _ => .inl rfl
  | [], y :: _, _, _, _ => .inr .nil
  | x :: _, [], _, h, h' => absurd h.1 (by simpa using h'.stuck x)
  | x :: l, y :: l', done, h, h' => by
    have hy : Ready nodes deps done y := by simpa using h'.ready [] y l' rfl
    rcases (h.2.1 y hy).lt_or_eq with hlt | heq
    · exact .inr (.rel hlt)
    · obtain rfl := hkey x y h.1.1 hy.1 heq
      exact (h.2.2.least hkey h'.tail).imp (congrArg _) .cons

variable {dep : α → List α} {N : List α} (hac : Chain.Acyclic dep) (hsub : ∀ n ∈ N, ∀ d ∈ dep n, d ∈ N)
include hac hsub

/-- Without cycles no node is left when none is ready. -/
theorem Chain.Acyclic.mem_of_stuck (h : ∀ x, ¬ Ready (· ∈ N) (fun x y => y ∈ dep x) done x) :
    ∀ x ∈ N, x ∈ done := by
  refine hac.induction_below N fun n hn ih => ?_
  by_contra hc
  exact h n ⟨hn, hc, fun d hd => ih d (hsub n hn d hd) (.single hd)⟩

theorem topological_iff (hN : N.Nodup) : Topological (· ∈ N) (fun x y => y ∈ dep x) [] l ↔
      l.Perm N ∧ ∀ pre x post, l = pre ++ x :: post → ∀ y ∈ dep x, y ∈ pre := by
  constructor
  · intro h
    have hnd : ∀ pre post, l = pre ++ post → pre.Nodup := by
      intro pre
      induction pre using reverseRecOn with
      | nil => exact fun _ _ => nodup_nil
      | append_singleton pre x ih =>
        intro post hl
        rw [append_assoc] at hl
        exact nodup_append_singleton.mpr ⟨ih _ hl, (h.ready pre x post hl).2.1⟩
    refine ⟨(perm_ext_iff_of_nodup (hnd l [] (append_nil l).symm) hN).mpr fun x => ⟨fun hx => ?_, ?_⟩,
      fun pre x post hl => (h.ready pre x post hl).2.2⟩
    · obtain ⟨pre, post, hl⟩ := append_of_mem hx
      exact (h.ready pre x post hl).1
    · exact hac.mem_of_stuck hsub h.stuck x
  · rintro ⟨hperm, hbefore⟩
    refine ⟨fun pre x post hl => ⟨hperm.mem_iff.mp (by simp [hl]), fun hx => ?_, hbefore pre x post hl⟩,
      fun x hx => hx.2.1 (hperm.mem_iff.mpr hx.1)⟩
    exact not_mem_of_nodup (hl ▸ hperm.nodup_iff.mpr hN) hx

end Topological

/-- What comes are nodes, each once. -/
theorem Greedy.mem : ∀ {l done : List α}, Greedy nodes deps key done l → ∀ x ∈ l, nodes x ∧ x ∉ done
  | x :: l, done, h, y, hy => by
    rcases mem_cons.mp hy with rfl | hy
    · exact ⟨h.1.1, h.1.2.1⟩
    · obtain ⟨hn, hd⟩ := h.2.2.mem y hy
      exact ⟨hn, fun hc => hd (mem_append_left _ hc)⟩

/-- Sorting by a key: rearranging the list changes nothing if different members have different keys. -/
theorem insertionSort_congr {key key' : α → κ} {l l' : List α} (hl : l.Perm l')
    (hkey : ∀ a ∈ l, key a = key' a) (hinj : ∀ a ∈ l, ∀ b ∈ l, key a = key b → a = b) :
    l.insertionSort (fun a b => key a ≤ key b) = l'.insertionSort (fun a b => key' a ≤ key' b) := by
  have hsort : ∀ (key : α → κ) (l : List α),
      (l.insertionSort fun a b => key a ≤ key b).Pairwise fun a b => key a ≤ key b := by
    intro key l
    have : Std.Total fun a b => key a ≤ key b := ⟨fun a b => le_total _ _⟩
    have : IsTrans α fun a b => key a ≤ key b := ⟨fun a b c => le_trans⟩
    exact pairwise_insertionSort _ l
  have hmem : ∀ a, a ∈ l'.insertionSort (fun a b => key' a ≤ key' b) → a ∈ l := fun a ha =>
    hl.mem_iff.mpr ((perm_insertionSort _ l').mem_iff.mp ha)
  refine List.Perm.eq_of_pairwise ?_ (hsort key l) ?_ ?_
  · intro a b ha hb hab hba
    exact hinj a ((perm_insertionSort _ l).mem_iff.mp ha) b (hmem b hb) (le_antisymm hab hba)
  · refine (hsort key' l').imp_of_mem fun ha hb hab => ?_
    rwa [hkey _ (hmem _ ha), hkey _ (hmem _ hb)]
  · exact (perm_insertionSort _ l).trans (hl.trans (perm_insertionSort _ l').symm)
end Kit
