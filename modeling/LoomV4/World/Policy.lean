import LoomV4.World.PolicyTable

namespace LoomV4.Vm

open List Option PolicyTable

structure PolicyNode where
  table : PolicyTable
  parent : Option VmId
  driven : Bool
  state : MachineState

inductive Resolution
  | denied
  | mock (owner : VmId) (closure : ObjRef)
  | driver (surface : VmId) (cursor : PolicyCursor)
  | root
deriving DecidableEq

namespace PolicyNode

variable (groupsOf : ℕ → List ℕ) (op : ℕ)

def cursorAfter (m : PolicyNode) : PolicyCursor :=
  match m.parent with
  | some parent => .table parent
  | none => .root

def gone (m : PolicyNode) : Bool := m.state = .done ∨ m.state = .faulted

/-- The walk up the parent chain, with the tables that it consults. It stops after one step for each machine. -/
def walk (nodes : List PolicyNode) : ℕ → VmId → Option (List VmId × Resolution)
  | 0, _ => some ([], .denied)
  | steps + 1, cur =>
    match nodes[cur]? with
    | none => none
    | some m =>
      match m.table.lookup groupsOf op with
      | none | some .block => some ([cur], .denied)
      | some (.mock closure) => some ([cur], .mock cur closure)
      | some .pass =>
        if m.driven then some ([cur], .driver cur m.cursorAfter)
        else match m.parent with
          | some parent => (walk nodes steps parent).map fun x => (cur :: x.1, x.2)
          | none => if m.gone then some ([cur], .denied) else some ([cur], .root)

def resolvePolicy (nodes : List PolicyNode) : PolicyCursor → Option (List VmId × Resolution)
  | .table vm => walk groupsOf op nodes nodes.length vm
  | .root => some ([], .root)

/-- A resolution that is resumed after each stop at a driver. The machines may change between the stops; the log holds the
tables that are consulted, each with its round. -/
inductive Settles (ws : ℕ → List PolicyNode) : ℕ → PolicyCursor → List (ℕ × VmId) → Resolution → Prop
  | stop {k cursor seen r} : resolvePolicy groupsOf op (ws k) cursor = some (seen, r) →
      (∀ surface next, r ≠ .driver surface next) → Settles ws k cursor (seen.map (k, ·)) r
  | resume {k cursor seen surface next log r} :
      resolvePolicy groupsOf op (ws k) cursor = some (seen, .driver surface next) →
      Settles ws (k + 1) next log r → Settles ws k cursor (seen.map (k, ·) ++ log) r

end PolicyNode

structure Forest (n : ℕ) where
  parent : Fin n → Option (Fin n)
  acyclic : ∀ i, ¬ Relation.TransGen (fun a b => parent a = some b) i i

/-- A machine is driven by a run of its parent, so a machine without a parent is never driven. -/
def PolicyNode.Held (nodes : List PolicyNode) : Prop := ∀ m ∈ nodes, m.parent = none → m.driven = false

namespace Forest

variable {n : ℕ} (f : Forest n)

inductive Chain : Fin n → List (Fin n) → Prop
  | root {i} : f.parent i = none → Chain i [i]
  | up {i p l} : f.parent i = some p → Chain p l → Chain i (i :: l)

def Fits (nodes : List PolicyNode) : Prop :=
  nodes.length = n ∧ ∀ i : Fin n, ∃ m, nodes[i.val]? = some m ∧ m.parent = (f.parent i).map Fin.val

variable {f}

theorem Fits.length_succ {nodes : List PolicyNode} (h : f.Fits nodes) (i : Fin n) : ∃ steps, nodes.length = steps + 1 := by
  apply Nat.exists_eq_succ_of_ne_zero
  rw [h.1]
  exact Nat.ne_of_gt i.pos

theorem chain_exists (i : Fin n) : ∃ l, f.Chain i l := by
  have hwf : WellFounded (fun a b => Relation.TransGen (fun a b => f.parent a = some b) b a) := by
    have ht : IsTrans (Fin n) (fun a b => Relation.TransGen (fun a b => f.parent a = some b) b a) :=
      ⟨fun a b c hab hbc => hbc.trans hab⟩
    have hi : Std.Irrefl (fun a b => Relation.TransGen (fun a b => f.parent a = some b) b a) :=
      ⟨fun a => f.acyclic a⟩
    exact Finite.wellFounded_of_trans_of_irrefl _
  induction i using hwf.induction with
  | _ i ih =>
    cases hp : f.parent i with
    | none => exact ⟨[i], .root hp⟩
    | some p =>
      obtain ⟨l, hl⟩ := ih p (.single hp)
      exact ⟨i :: l, .up hp hl⟩

variable {l : List (Fin n)}

theorem Chain.above {i : Fin n} (h : f.Chain i l) :
    ∀ j ∈ l, j = i ∨ Relation.TransGen (fun a b => f.parent a = some b) i j := by
  induction h with
  | root => exact fun j hj => .inl (mem_singleton.mp hj)
  | up hp _ ih =>
    intro j hj
    rcases mem_cons.mp hj with rfl | hj
    · exact .inl rfl
    · rcases ih j hj with rfl | hj
      · exact .inr (.single hp)
      · exact .inr (.head hp hj)

theorem Chain.nodup {i : Fin n} (h : f.Chain i l) : l.Nodup := by
  induction h with
  | root => exact nodup_singleton _
  | up hp hl ih =>
    refine nodup_cons.mpr ⟨fun hm => ?_, ih⟩
    rcases hl.above _ hm with rfl | hup
    · exact f.acyclic _ (.single hp)
    · exact f.acyclic _ (.head hp hup)

theorem Chain.unique {i : Fin n} {l' : List (Fin n)} (h : f.Chain i l) (h' : f.Chain i l') : l' = l := by
  induction h generalizing l' with
  | root hp =>
    cases h' with
    | root => rfl
    | up hp' => rw [hp] at hp'; cases hp'
  | up hp _ ih =>
    cases h' with
    | root hp' => rw [hp] at hp'; cases hp'
    | up hp' hl' =>
      rw [hp] at hp'
      cases hp'
      rw [ih hl']

theorem Chain.length_le {i : Fin n} (h : f.Chain i l) : l.length ≤ n := by
  simpa using h.nodup.length_le_card

end Forest

namespace PolicyNode

variable {groupsOf : ℕ → List ℕ} {op n : ℕ} {f : Forest n}

variable {nodes : List PolicyNode} {i : Fin n} {l : List (Fin n)}

theorem walk_steps (hf : f.Fits nodes) (h : f.Chain i l) :
    ∀ steps, l.length ≤ steps → walk groupsOf op nodes steps i = walk groupsOf op nodes l.length i := by
  induction h with
  | @root i hp =>
    intro steps hs
    obtain ⟨m, hm, ha⟩ := hf.2 i
    cases steps with
    | zero => simp at hs
    | succ steps =>
      rw [length_singleton, walk, walk, hm]
      dsimp only
      rw [ha, hp]
      rfl
  | @up i p l hp _ ih =>
    intro steps hs
    obtain ⟨m, hm, ha⟩ := hf.2 i
    cases steps with
    | zero => simp at hs
    | succ steps =>
      rw [length_cons, walk, walk, hm]
      dsimp only
      rw [ha, hp]
      dsimp only [map_some]
      rw [ih steps (by simpa using hs)]

theorem resolvePolicy_chain (hf : f.Fits nodes) (h : f.Chain i l) :
    resolvePolicy groupsOf op nodes (.table i) = walk groupsOf op nodes l.length i := by
  rw [resolvePolicy, walk_steps hf h]
  rw [hf.1]
  exact h.length_le

variable (groupsOf op) in
def Passes (nodes : List PolicyNode) (m : VmId) : Prop :=
  ∃ node, nodes[m]? = some node ∧ node.table.lookup groupsOf op = some .pass

def Answers (nodes : List PolicyNode) (m : VmId) : Prop :=
  ∃ node, nodes[m]? = some node ∧ node.gone = false

variable (groupsOf op) in
def Stops (nodes : List PolicyNode) (m : VmId) (r : Resolution) : Prop :=
  ∃ node, nodes[m]? = some node ∧
    ((node.table.lookup groupsOf op = none ∨ node.table.lookup groupsOf op = some .block) ∧ r = .denied ∨
      ∃ closure, node.table.lookup groupsOf op = some (.mock closure) ∧ r = .mock m closure)

variable (groupsOf op) in
inductive Verdict (ws : ℕ → List PolicyNode) : List (Fin n) → List (ℕ × VmId) → Resolution → Prop
  | stop {k rest r} {i : Fin n} : Stops groupsOf op (ws k) i r → Verdict ws (i :: rest) [(k, i.val)] r
  | root {k} {i : Fin n} : Passes groupsOf op (ws k) i → Answers (ws k) i → Verdict ws [i] [(k, i.val)] .root
  | gone {k} {i : Fin n} : Passes groupsOf op (ws k) i → ¬ Answers (ws k) i → Verdict ws [i] [(k, i.val)] .denied
  | next {k j rest log r} {i : Fin n} : Passes groupsOf op (ws k) i → Verdict ws (j :: rest) log r →
      Verdict ws (i :: j :: rest) ((k, i.val) :: log) r

variable {r : Resolution}

theorem Stops.final {m : VmId} (h : Stops groupsOf op nodes m r) : ∀ surface next, r ≠ .driver surface next := by
  obtain ⟨node, -, ⟨-, rfl⟩ | ⟨closure, -, rfl⟩⟩ := h <;> exact fun _ _ => nofun

variable {ws : ℕ → List PolicyNode}

theorem Settles.stops (hf : ∀ k, f.Fits (ws k)) {k : ℕ} (h : Stops groupsOf op (ws k) i r) :
    Settles groupsOf op ws k (.table i) [(k, i.val)] r := by
  refine @Settles.stop _ _ _ _ _ [i.val] _ ?_ h.final
  obtain ⟨node, hn, hr⟩ := h
  obtain ⟨steps, hs⟩ := (hf k).length_succ i
  rw [resolvePolicy, hs, walk, hn]
  dsimp only
  obtain ⟨ho | hb, rfl⟩ | ⟨closure, hm, rfl⟩ := hr
  · rw [ho]
  · rw [hb]
  · rw [hm]

variable {m : PolicyNode} {log : List (ℕ × VmId)}

theorem Settles.up (hi : ∀ k, f.Fits (ws k)) {k : ℕ} {p : Fin n} (hm : (ws k)[i.val]? = some m)
    (hs : m.table.lookup groupsOf op = some .pass) (hd : m.driven = false) (ha : m.parent = some p.val)
    (hp : f.parent i = some p) (hl : f.Chain p l) (h : Settles groupsOf op ws k (.table p) log r) :
    Settles groupsOf op ws k (.table i) ((k, i.val) :: log) r := by
  have hw : resolvePolicy groupsOf op (ws k) (.table i) =
      (resolvePolicy groupsOf op (ws k) (.table p)).map (fun x => (i.val :: x.1, x.2)) := by
    rw [resolvePolicy_chain (hi k) (.up hp hl), resolvePolicy_chain (hi k) hl, length_cons, walk, hm]
    dsimp only
    rw [hs, hd, ha]
    rfl
  cases h with
  | stop hr hf =>
    rw [hr] at hw
    exact Settles.stop hw hf
  | resume hr he =>
    rw [hr] at hw
    exact Settles.resume hw he

theorem Settles.driven (hf : ∀ k, f.Fits (ws k)) {k : ℕ} (hm : (ws k)[i.val]? = some m)
    (hp : m.table.lookup groupsOf op = some .pass) (hd : m.driven = true)
    (h : Settles groupsOf op ws (k + 1) m.cursorAfter log r) :
    Settles groupsOf op ws k (.table i) ((k, i.val) :: log) r := by
  refine @Settles.resume _ _ _ _ _ [i.val] i.val _ _ _ ?_ h
  obtain ⟨steps, hs⟩ := (hf k).length_succ i
  rw [resolvePolicy, hs, walk, hm]
  dsimp only
  rw [hp]
  exact if_pos hd

theorem stops_of_not_pass {i : VmId} (hm : nodes[i]? = some m)
    (hp : m.table.lookup groupsOf op ≠ some .pass) : ∃ r, Stops groupsOf op nodes i r := by
  cases hl : m.table.lookup groupsOf op with
  | none => exact ⟨.denied, m, hm, .inl ⟨.inl hl, rfl⟩⟩
  | some a =>
    cases a with
    | pass => exact absurd hl hp
    | block => exact ⟨.denied, m, hm, .inl ⟨.inr hl, rfl⟩⟩
    | mock closure => exact ⟨.mock i closure, m, hm, .inr ⟨closure, hl, rfl⟩⟩

theorem settles_verdict (hf : ∀ k, f.Fits (ws k)) (hh : ∀ k, Held (ws k)) (h : f.Chain i l) :
    ∀ k, ∃ log r, Settles groupsOf op ws k (.table i) log r ∧ Verdict groupsOf op ws l log r := by
  induction h with
  | @root i hp =>
    intro k
    obtain ⟨m, hm, ha⟩ := (hf k).2 i
    rw [hp, map_none] at ha
    by_cases hs : m.table.lookup groupsOf op = some .pass
    · have hd := hh k m (mem_of_getElem? hm) ha
      have hw : resolvePolicy groupsOf op (ws k) (.table i) =
          some ([i.val], if m.gone then .denied else .root) := by
        rw [resolvePolicy_chain (hf k) (.root hp), length_singleton, walk, hm]
        dsimp only
        rw [hs, hd, ha]
        cases m.gone <;> rfl
      cases hg : m.gone with
      | true =>
        rw [hg] at hw
        refine ⟨_, _, Settles.stop hw fun _ _ => nofun, .gone ⟨m, hm, hs⟩ ?_⟩
        rintro ⟨m', hm', hor⟩
        rw [hm] at hm'
        obtain rfl := some.inj hm'
        rw [hg] at hor
        cases hor
      | false =>
        rw [hg] at hw
        exact ⟨_, _, Settles.stop hw fun _ _ => nofun, .root ⟨m, hm, hs⟩ ⟨m, hm, hg⟩⟩
    · obtain ⟨r, hr⟩ := stops_of_not_pass hm hs
      exact ⟨_, r, .stops hf hr, .stop hr⟩
  | @up i p l hp hl ih =>
    intro k
    obtain ⟨m, hm, ha⟩ := (hf k).2 i
    rw [hp, map_some] at ha
    obtain ⟨j, rest, rfl⟩ : ∃ j rest, l = j :: rest := by
      cases hl <;> exact ⟨_, _, rfl⟩
    by_cases hs : m.table.lookup groupsOf op = some .pass
    · cases hd : m.driven with
      | true =>
        obtain ⟨log, r, he, hv⟩ := ih (k + 1)
        refine ⟨_, r, .driven hf hm hs hd ?_, .next ⟨m, hm, hs⟩ hv⟩
        rw [cursorAfter, ha]
        exact he
      | false =>
        obtain ⟨log, r, he, hv⟩ := ih k
        exact ⟨_, r, .up hf hm hs hd ha hp hl he, .next ⟨m, hm, hs⟩ hv⟩
    · obtain ⟨r, hr⟩ := stops_of_not_pass hm hs
      exact ⟨_, r, .stops hf hr, .stop hr⟩

theorem Settles.unique {k : ℕ} {cursor : PolicyCursor} {log' : List (ℕ × VmId)}
    {r' : Resolution} (h : Settles groupsOf op ws k cursor log r) (h' : Settles groupsOf op ws k cursor log' r') :
    log' = log ∧ r' = r := by
  induction h generalizing log' r' with
  | stop hr hf =>
    cases h' with
    | stop hr' =>
      rw [hr] at hr'
      obtain ⟨rfl, rfl⟩ := Prod.mk.inj (some.inj hr')
      exact ⟨rfl, rfl⟩
    | resume hr' =>
      rw [hr] at hr'
      exact absurd (Prod.mk.inj (some.inj hr')).2 (hf _ _)
  | resume hr _ ih =>
    cases h' with
    | stop hr' hf =>
      rw [hr] at hr'
      exact absurd (Prod.mk.inj (some.inj hr')).2.symm (hf _ _)
    | resume hr' he' =>
      rw [hr] at hr'
      obtain ⟨rfl, hd⟩ := Prod.mk.inj (some.inj hr')
      obtain ⟨rfl, rfl⟩ := Resolution.driver.inj hd
      obtain ⟨rfl, rfl⟩ := ih he'
      exact ⟨rfl, rfl⟩

theorem Verdict.consulted (h : Verdict groupsOf op ws l log r) : log.map Prod.snd <+: l.map Fin.val := by
  induction h with
  | stop => exact ⟨_, rfl⟩
  | root => exact ⟨[], rfl⟩
  | gone => exact ⟨[], rfl⟩
  | next _ _ ih => exact cons_prefix_cons.mpr ⟨rfl, ih⟩

theorem Verdict.passed (h : Verdict groupsOf op ws l log .root) :
    log.map Prod.snd = l.map Fin.val ∧ (∀ x ∈ log, Passes groupsOf op (ws x.1) x.2) ∧
      ∀ x ∈ log.getLast?, Answers (ws x.1) x.2 := by
  generalize hr : Resolution.root = r at h
  induction h with
  | stop hs =>
    obtain ⟨_, -, ⟨-, rfl⟩ | ⟨_, -, rfl⟩⟩ := hs <;> cases hr
  | root hp ha =>
    refine ⟨rfl, fun x hx => ?_, fun x hx => ?_⟩
    · obtain rfl := mem_singleton.mp hx
      exact hp
    · cases hx
      exact ha
  | gone => cases hr
  | next hp hv ih =>
    obtain ⟨hl, he, ha⟩ := ih hr
    refine ⟨congrArg _ hl, forall_mem_cons.mpr ⟨hp, he⟩, fun x hx => ha x ?_⟩
    cases hv <;> simpa using hx

theorem Stops.not_passes {m : VmId} (h : Stops groupsOf op nodes m r) : ¬ Passes groupsOf op nodes m := by
  rintro ⟨node, hn, hp⟩
  obtain ⟨node', hn', hr⟩ := h
  rw [hn] at hn'
  obtain rfl := some.inj hn'
  rw [hp] at hr
  obtain ⟨ho | hb, -⟩ | ⟨_, hm, -⟩ := hr
  · cases ho
  · cases hb
  · cases hm

theorem Stops.ne_root {m : VmId} (h : Stops groupsOf op nodes m r) : r ≠ .root := by
  obtain ⟨_, -, ⟨-, rfl⟩ | ⟨_, -, rfl⟩⟩ := h <;> exact nofun

variable {w : List PolicyNode}

theorem Verdict.eq_root_iff (h : Verdict groupsOf op (fun _ => w) l log r) :
    r = .root ↔ (∀ m ∈ l, Passes groupsOf op w m) ∧ ∀ m ∈ l.getLast?, Answers w m := by
  induction h with
  | stop hs =>
    refine ⟨fun hr => absurd hr hs.ne_root, fun ha => ?_⟩
    exact absurd (ha.1 _ mem_cons_self) hs.not_passes
  | root hp hn => simp [hp, hn]
  | gone hp hg => simp [hg]
  | next hp _ ih =>
    rw [ih, getLast?_cons_cons]
    constructor
    · exact fun ha => ⟨forall_mem_cons.mpr ⟨hp, ha.1⟩, ha.2⟩
    · exact fun ha => ⟨(forall_mem_cons.mp ha.1).2, ha.2⟩

theorem Verdict.eq_denied (h : Verdict groupsOf op (fun _ => w) l log r) (hp : ∀ m ∈ l, Passes groupsOf op w m)
    (ha : ∀ m ∈ l.getLast?, ¬ Answers w m) : r = .denied ∧ log.map Prod.snd = l.map Fin.val := by
  induction h with
  | stop hs => exact absurd (hp _ mem_cons_self) hs.not_passes
  | root _ hn => exact absurd hn (ha _ rfl)
  | gone => exact ⟨rfl, rfl⟩
  | next _ _ ih =>
    obtain ⟨hr, hl⟩ := ih (forall_mem_cons.mp hp).2 (by rwa [getLast?_cons_cons] at ha)
    exact ⟨hr, congrArg _ hl⟩

theorem Verdict.first (h : Verdict groupsOf op (fun _ => w) l log r) :
    ∀ (front : List (Fin n)) (m : Fin n) back, l = front ++ m :: back →
      (∀ x ∈ front, Passes groupsOf op w x) → ¬ Passes groupsOf op w m →
      log.map Prod.snd = (front ++ [m]).map Fin.val ∧ Stops groupsOf op w m r := by
  induction h with
  | @stop _ rest _ i hs =>
    intro front m back hl hf hm
    cases front with
    | nil =>
      obtain ⟨rfl, -⟩ := List.cons.inj hl
      exact ⟨rfl, hs⟩
    | cons x front =>
      obtain ⟨rfl, -⟩ := List.cons.inj hl
      exact absurd (hf _ mem_cons_self) hs.not_passes
  | @root _ i hp _ | @gone _ i hp _ =>
    intro front m back hl hf hm
    have he : m ∈ [i] := by
      rw [hl]
      exact mem_append_right front mem_cons_self
    obtain rfl := mem_singleton.mp he
    exact absurd hp hm
  | next hp _ ih =>
    intro front m back hl hf hm
    cases front with
    | nil =>
      obtain ⟨rfl, -⟩ := List.cons.inj hl
      exact absurd hp hm
    | cons x front =>
      obtain ⟨rfl, hr⟩ := List.cons.inj hl
      obtain ⟨ho, hs⟩ := ih front m back hr (fun x hx => hf x (mem_cons_of_mem _ hx)) hm
      exact ⟨congrArg _ ho, hs⟩

/--
Resolution along the parent chain: it ends, it consults the tables in the order of the chain, each once, and the first
that does not pass decides. The tables, the drivers and the states may change between the stops.
-/
theorem policy_attenuation (groupsOf : ℕ → List ℕ) (opCount groupCount op : ℕ) {n : ℕ} (f : Forest n)
    (w : List PolicyNode) (hw : f.Fits w) (hheld : Held w) (i : Fin n) : ∃ chain, f.Chain i chain ∧ chain.Nodup ∧
      (∃ log r, (∀ log' r', Settles groupsOf op (fun _ => w) 0 (.table i) log' r' ↔ log' = log ∧ r' = r) ∧
        log.map Prod.snd <+: chain.map Fin.val ∧
        (r = .root ↔ (∀ m ∈ chain, Passes groupsOf op w m) ∧ ∀ m ∈ chain.getLast?, Answers w m) ∧
        ((∀ m ∈ chain, Passes groupsOf op w m) → (∀ m ∈ chain.getLast?, ¬ Answers w m) →
          r = .denied ∧ log.map Prod.snd = chain.map Fin.val) ∧
        ∀ (front : List (Fin n)) (m : Fin n) back, chain = front ++ m :: back → (∀ x ∈ front, Passes groupsOf op w x) →
          ¬ Passes groupsOf op w m → log.map Prod.snd = (front ++ [m]).map Fin.val ∧ Stops groupsOf op w m r) ∧
      (∀ ws : ℕ → List PolicyNode, (∀ k, f.Fits (ws k)) → (∀ k, Held (ws k)) → ∀ k, ∃ log r,
        (∀ log' r', Settles groupsOf op ws k (.table i) log' r' ↔ log' = log ∧ r' = r) ∧
        log.map Prod.snd <+: chain.map Fin.val ∧
        (r = .root → log.map Prod.snd = chain.map Fin.val ∧ (∀ x ∈ log, Passes groupsOf op (ws x.1) x.2) ∧
          ∀ x ∈ log.getLast?, Answers (ws x.1) x.2)) ∧
      PolicyTable.Law groupsOf opCount groupCount op := by
  obtain ⟨chain, hchain⟩ := f.chain_exists i
  have hiff : ∀ {ws : ℕ → List PolicyNode} {k log r}, Settles groupsOf op ws k (.table i) log r → ∀ log' r',
      Settles groupsOf op ws k (.table i) log' r' ↔ log' = log ∧ r' = r := by
    intro ws k log r hsettles log' r'
    refine ⟨hsettles.unique, ?_⟩
    rintro ⟨rfl, rfl⟩
    exact hsettles
  refine ⟨chain, hchain, hchain.nodup, ?_, ?_, law groupsOf opCount groupCount op⟩
  · obtain ⟨log, r, hsettles, hverdict⟩ : ∃ log r, Settles groupsOf op (fun _ => w) 0 (.table i) log r ∧ _ :=
      settles_verdict (fun _ => hw) (fun _ => hheld) hchain 0
    exact ⟨log, r, hiff hsettles, hverdict.consulted, hverdict.eq_root_iff, hverdict.eq_denied, hverdict.first⟩
  · intro ws hws hhs k
    obtain ⟨log, r, hsettles, hverdict⟩ := settles_verdict hws hhs hchain k
    refine ⟨log, r, hiff hsettles, hverdict.consulted, ?_⟩
    rintro rfl
    exact hverdict.passed

/-- Three machines, of which the one in the middle is driven. The root passes the operation by a group. -/
def tower (state : MachineState) : List PolicyNode :=
  [{ table := { group := [none, some .pass] }, parent := none, driven := false, state },
    { table := { exact := [some .pass] }, parent := some 0, driven := true, state := .running },
    { table := { exact := [some .pass] }, parent := some 1, driven := false, state := .running }]

def towerParent : Fin 3 → Option (Fin 3)
  | 0 => none
  | 1 => some 0
  | 2 => some 1

theorem towerParent_lt {i j : Fin 3} (h : Relation.TransGen (fun a b => towerParent a = some b) i j) : j < i := by
  have hstep : ∀ i j, towerParent i = some j → j < i := by decide
  induction h with
  | single h => exact hstep _ _ h
  | tail _ h ih => exact (hstep _ _ h).trans ih

def towerForest : Forest 3 where
  parent := towerParent
  acyclic := fun i h => lt_irrefl i (towerParent_lt h)

theorem towerForest_fits (state : MachineState) : towerForest.Fits (tower state) := by
  refine ⟨rfl, fun i => ?_⟩
  rcases i with ⟨_ | _ | _ | i, hi⟩
  · exact ⟨_, rfl, rfl⟩
  · exact ⟨_, rfl, rfl⟩
  · exact ⟨_, rfl, rfl⟩
  · omega

theorem tower_held (state : MachineState) : Held (tower state) := by
  simp [Held, tower]

/-- The driver in the middle stops the walk, and the end of the root denies what all three pass. -/
theorem policy_attenuation_tower :
    let groupsOf := fun _ => [0, 1]
    Settles groupsOf 0 (fun _ => tower .running) 0 (.table 2) [(0, 2), (0, 1), (1, 0)] .root ∧
    (∀ m ∈ ([2, 1, 0] : List (Fin 3)), Passes groupsOf 0 (tower .running) m) ∧
    ∀ log r, Settles groupsOf 0 (fun _ => tower .done) 0 (.table 2) log r →
      r = .denied ∧ log.map Prod.snd = [2, 1, 0] := by
  intro groupsOf
  have hchain : towerForest.Chain 2 [2, 1, 0] := .up rfl (.up rfl (.root rfl))
  have hsettles : Settles groupsOf 0 (fun _ => tower .running) 0 (.table 2) ([2, 1].map (0, ·) ++ [0].map (1, ·)) .root :=
    .resume rfl (.stop rfl fun _ _ => nofun)
  refine ⟨hsettles, ?_, ?_⟩
  · obtain ⟨chain, hc, -, ⟨log, r, hiff, -, hroot, -⟩, -⟩ :=
      policy_attenuation groupsOf 1 2 0 towerForest (tower .running) (towerForest_fits _) (tower_held _) 2
    obtain rfl := hchain.unique hc
    obtain ⟨-, rfl⟩ := (hiff _ _).mp hsettles
    exact (hroot.mp rfl).1
  · intro log r hs
    obtain ⟨chain, hc, -, ⟨log', r', hiff, -, -, hdenied, -⟩, -⟩ :=
      policy_attenuation groupsOf 1 2 0 towerForest (tower .done) (towerForest_fits _) (tower_held _) 2
    obtain rfl := hchain.unique hc
    obtain ⟨rfl, rfl⟩ := (hiff _ _).mp hs
    refine hdenied (fun m hm => ?_) fun m hm => ?_
    · simp only [mem_cons, not_mem_nil, or_false] at hm
      rcases hm with rfl | rfl | rfl <;> exact ⟨_, rfl, rfl⟩
    · cases hm
      rintro ⟨node, hn, hg⟩
      cases hn
      cases hg

end PolicyNode

end LoomV4.Vm
