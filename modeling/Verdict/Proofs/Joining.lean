import Verdict.Proofs.LeftDeep
import Verdict.Proofs.Spine

/-!
# Which connective joins which operand

In any row of tokens, also one that is no rule, an operand behind the first one is kept if it finds
a connective that no operand in front of it has taken, and it takes the latest of these. That is
told with places in the row (`Token.Bonds`), and without the connectives that wait in a fold.

1. The connectives that wait are those at the free places, latest first (`Token.Waits`).
2. So an operand that finds one waiting takes the latest free place (`Waits.exists_latest`), and one
   that finds none waiting has none free (`Bonds.drop`).
3. By what each token does to the fold, the tree is the spine of the operands that are kept
   (`Growth.follows_foldl`), and every connective is taken or waits (`ofTokens?_joins`).
-/

namespace Verdict

namespace Token

/-- The connective of a token. -/
def connective? : Token → Option Connective
  | .connective c => some c
  | .operand _ => none

/-- The connectives among tokens, in order. -/
def connectives (tokens : List Token) : List Connective :=
  tokens.filterMap connective?

theorem length_connectives_concat_connective (tokens : List Token) (c : Connective) :
    (connectives (tokens ++ [.connective c])).length = (connectives tokens).length + 1 := by
  simp [connectives, connective?]

theorem connectives_concat_operand (tokens : List Token) (clause : String) :
    connectives (tokens ++ [.operand clause]) = connectives tokens := by
  simp [connectives, connective?]

theorem getElem?_concat_eq_some_iff {tokens : List Token} {last token : Token} {place : Nat} :
    (tokens ++ [last])[place]? = some token ↔
      tokens[place]? = some token ∨ place = tokens.length ∧ last = token := by
  rw [List.getElem?_append]
  split
  · next hlt => exact ⟨.inl, fun h => h.resolve_right fun hlast => by omega⟩
  · next hge =>
    rw [List.getElem?_eq_none (Nat.not_lt.mp hge), List.getElem?_singleton]
    constructor
    · intro h
      split at h
      · exact .inr ⟨by omega, Option.some.inj h⟩
      · cases h
    · rintro (h | ⟨rfl, rfl⟩)
      · cases h
      · simp

theorem lt_length_of_getElem? {tokens : List Token} {token : Token} {place : Nat}
    (h : tokens[place]? = some token) : place < tokens.length :=
  (List.getElem?_eq_some_iff.mp h).1

/-! ## Bonds -/

/-- An operand and the connective that joins it, with the places of both among tokens. -/
structure Bond where
  connective : Connective
  taken : Nat
  clause : String
  place : Nat

/-- The bonds are those of the operands behind the place of the first one. -/
structure Bonds (tokens : List Token) (first : Nat) (bonds : List Bond) : Prop where
  /-- A bond is made of a connective and of an operand behind it and behind the first operand. -/
  written : ∀ b ∈ bonds, tokens[b.taken]? = some (.connective b.connective) ∧
    tokens[b.place]? = some (.operand b.clause) ∧ b.taken < b.place ∧ first < b.place
  /-- The operands stand in order, and no connective is taken twice. -/
  ordered : bonds.Pairwise fun b later => b.place < later.place ∧ b.taken ≠ later.taken
  /-- An operand is kept if there are more connectives than kept operands in front of it. -/
  kept_iff : ∀ place clause, tokens[place]? = some (.operand clause) → first < place →
    ((∃ b ∈ bonds, b.place = place) ↔
      (bonds.filter (·.place < place)).length < (connectives (tokens.take place)).length)
  /-- A connective that a kept operand passes over was taken in front of it. -/
  latest : ∀ b ∈ bonds, ∀ place c, tokens[place]? = some (.connective c) → b.taken < place →
    place < b.place → ∃ earlier ∈ bonds, earlier.place < b.place ∧ earlier.taken = place

/-- The connectives that wait stand at the places that no bond has taken, the latest first. -/
structure Waits (tokens : List Token) (bonds : List Bond) (waiting : List Connective) : Prop where
  exists_places : ∃ places : List (Nat × Connective), places.map Prod.snd = waiting ∧
    (places.Pairwise fun later earlier => earlier.1 < later.1) ∧
    ∀ place c, (place, c) ∈ places ↔
      tokens[place]? = some (.connective c) ∧ ∀ b ∈ bonds, b.taken ≠ place
  length_eq : bonds.length + waiting.length = (connectives tokens).length

namespace Waits

variable {tokens : List Token} {bonds : List Bond} {waiting : List Connective}

theorem nil : Waits [] [] [] where
  exists_places := ⟨[], rfl, .nil, by simp⟩
  length_eq := rfl

theorem operand (h : Waits tokens bonds waiting) (clause : String) :
    Waits (tokens ++ [.operand clause]) bonds waiting where
  exists_places := by
    obtain ⟨places, hwaiting, hordered, hfree⟩ := h.exists_places
    refine ⟨places, hwaiting, hordered, fun place c => ?_⟩
    rw [hfree, getElem?_concat_eq_some_iff]
    simp
  length_eq := by rw [connectives_concat_operand, h.length_eq]

/-- A connective that comes last is the latest that waits. -/
theorem connective (h : Waits tokens bonds waiting) (hbonds : ∀ b ∈ bonds, b.taken < tokens.length)
    (c : Connective) : Waits (tokens ++ [.connective c]) bonds (c :: waiting) where
  exists_places := by
    obtain ⟨places, hwaiting, hordered, hfree⟩ := h.exists_places
    refine ⟨(tokens.length, c) :: places, by rw [List.map_cons, hwaiting],
      List.pairwise_cons.mpr ⟨fun p hp => ?_, hordered⟩, fun place d => ?_⟩
    · exact lt_length_of_getElem? ((hfree p.1 p.2).mp hp).1
    · rw [List.mem_cons, hfree, getElem?_concat_eq_some_iff]
      constructor
      · rintro (h | ⟨hplace, hnone⟩)
        · cases h
          exact ⟨.inr ⟨rfl, rfl⟩, fun b hb => (hbonds b hb).ne⟩
        · exact ⟨.inl hplace, hnone⟩
      · rintro ⟨hplace | ⟨rfl, hlast⟩, hnone⟩
        · exact .inr ⟨hplace, hnone⟩
        · cases hlast
          exact .inl rfl
  length_eq := by
    rw [length_connectives_concat_connective, List.length_cons, ← h.length_eq, Nat.add_assoc]

/-- The latest connective that waits stands at a free place, and all later ones are taken. Without
it the others wait. -/
theorem exists_latest {c : Connective} (h : Waits tokens bonds (c :: waiting)) :
    ∃ taken, tokens[taken]? = some (.connective c) ∧ (∀ b ∈ bonds, b.taken ≠ taken) ∧
      (∀ place d, tokens[place]? = some (.connective d) → taken < place →
        ∃ b ∈ bonds, b.taken = place) ∧
      ∀ bond : Bond, bond.taken = taken → Waits tokens (bonds ++ [bond]) waiting := by
  obtain ⟨places, hwaiting, hordered, hfree⟩ := h.exists_places
  match places, hwaiting with
  | (taken, _) :: places, rfl =>
    obtain ⟨hlatest, hbelow⟩ := List.pairwise_cons.mp hordered
    obtain ⟨hplace, hnone⟩ := (hfree taken c).mp List.mem_cons_self
    refine ⟨taken, hplace, hnone, fun place d hd hlt => ?_, ?_⟩
    · by_contra hfresh
      have hmem : (place, d) ∈ (taken, c) :: places :=
        (hfree place d).mpr ⟨hd, fun b hb heq => hfresh ⟨b, hb, heq⟩⟩
      rcases List.mem_cons.mp hmem with heq | hmem
      · cases heq
        exact lt_irrefl _ hlt
      · exact lt_asymm hlt (hlatest _ hmem)
    · rintro bond rfl
      refine ⟨⟨places, rfl, hbelow, fun other d => ?_⟩, ?_⟩
      · rw [List.forall_mem_append, List.forall_mem_singleton]
        constructor
        · intro hmem
          obtain ⟨hd, hfresh⟩ := (hfree other d).mp (List.mem_cons_of_mem _ hmem)
          exact ⟨hd, hfresh, (hlatest _ hmem).ne'⟩
        · rintro ⟨hd, hfresh, hne⟩
          refine (List.mem_cons.mp ((hfree other d).mpr ⟨hd, hfresh⟩)).resolve_left fun heq => ?_
          cases heq
          exact hne rfl
      · have hlength := h.length_eq
        rw [List.length_cons] at hlength
        rw [List.length_append, List.length_singleton]
        omega

end Waits

namespace Bonds

variable {tokens : List Token} {first : Nat} {bonds : List Bond}

theorem taken_lt (h : Bonds tokens first bonds) {b : Bond} (hb : b ∈ bonds) :
    b.taken < tokens.length :=
  lt_length_of_getElem? (h.written b hb).1

theorem place_lt (h : Bonds tokens first bonds) {b : Bond} (hb : b ∈ bonds) :
    b.place < tokens.length :=
  lt_length_of_getElem? (h.written b hb).2.1

theorem filter_length (h : Bonds tokens first bonds) :
    bonds.filter (·.place < tokens.length) = bonds :=
  List.filter_eq_self.mpr fun _ hb => decide_eq_true (h.place_lt hb)

theorem of_first (before : List Token) (clause : String) :
    Bonds (before ++ [.operand clause]) before.length [] where
  written := by simp
  ordered := .nil
  kept_iff := by
    intro place other hplace hlt
    have hbound := lt_length_of_getElem? hplace
    rw [List.length_append, List.length_singleton] at hbound
    omega
  latest := by simp

/-- The bonds stay when one more token takes nothing. -/
theorem concat (h : Bonds tokens first bonds) {token : Token}
    (hdropped : ∀ clause, token = .operand clause →
      ¬bonds.length < (connectives tokens).length) :
    Bonds (tokens ++ [token]) first bonds where
  written := by
    intro b hb
    obtain ⟨htaken, hplace, hlt, hfirst⟩ := h.written b hb
    exact ⟨getElem?_concat_eq_some_iff.mpr (.inl htaken),
      getElem?_concat_eq_some_iff.mpr (.inl hplace), hlt, hfirst⟩
  ordered := h.ordered
  kept_iff := by
    intro place clause hplace hlt
    rcases getElem?_concat_eq_some_iff.mp hplace with hplace | ⟨rfl, rfl⟩
    · rw [List.take_append_of_le_length (lt_length_of_getElem? hplace).le]
      exact h.kept_iff place clause hplace hlt
    · rw [h.filter_length, List.take_left]
      refine iff_of_false ?_ (hdropped clause rfl)
      rintro ⟨b, hb, hsame⟩
      exact (h.place_lt hb).ne hsame
  latest := by
    intro b hb place c hplace hlt hgt
    rcases getElem?_concat_eq_some_iff.mp hplace with hplace | ⟨rfl, -⟩
    · exact h.latest b hb place c hplace hlt hgt
    · exact absurd hgt (h.place_lt hb).not_gt

theorem filter_concat (bonds : List Bond) {bond : Bond} {place : Nat} (h : place ≤ bond.place) :
    (bonds ++ [bond]).filter (·.place < place) = bonds.filter (·.place < place) := by
  rw [List.filter_append, List.filter_singleton, decide_eq_false (Nat.not_lt.mpr h)]
  simp

/-- An operand that comes last takes the latest free connective. -/
theorem take (h : Bonds tokens first bonds) (hfirst : first < tokens.length) (bond : Bond)
    (htaken : tokens[bond.taken]? = some (.connective bond.connective))
    (hplace : bond.place = tokens.length) (hfree : ∀ b ∈ bonds, b.taken ≠ bond.taken)
    (hlatest : ∀ place c, tokens[place]? = some (.connective c) → bond.taken < place →
      ∃ b ∈ bonds, b.taken = place)
    (hroom : bonds.length < (connectives tokens).length) :
    Bonds (tokens ++ [.operand bond.clause]) first (bonds ++ [bond]) where
  written := by
    rw [List.forall_mem_append, List.forall_mem_singleton]
    refine ⟨fun b hb => ?_, ?_⟩
    · obtain ⟨htaken, hplace, hlt, hbehind⟩ := h.written b hb
      exact ⟨getElem?_concat_eq_some_iff.mpr (.inl htaken),
        getElem?_concat_eq_some_iff.mpr (.inl hplace), hlt, hbehind⟩
    · rw [hplace]
      exact ⟨getElem?_concat_eq_some_iff.mpr (.inl htaken),
        getElem?_concat_eq_some_iff.mpr (.inr ⟨rfl, rfl⟩), lt_length_of_getElem? htaken, hfirst⟩
  ordered := by
    refine List.pairwise_append.mpr ⟨h.ordered, List.pairwise_singleton _ _, fun b hb last hl => ?_⟩
    rw [List.mem_singleton.mp hl, hplace]
    exact ⟨h.place_lt hb, hfree b hb⟩
  kept_iff := by
    intro place clause hclause hlt
    rcases getElem?_concat_eq_some_iff.mp hclause with hclause | ⟨rfl, -⟩
    · have hbound := lt_length_of_getElem? hclause
      rw [List.take_append_of_le_length hbound.le, filter_concat bonds (hplace ▸ hbound.le),
        ← h.kept_iff place clause hclause hlt]
      simp [hplace, hbound.ne']
    · rw [List.take_left, filter_concat bonds hplace.ge, h.filter_length]
      exact iff_of_true ⟨bond, by simp, hplace⟩ hroom
  latest := by
    rw [List.forall_mem_append, List.forall_mem_singleton]
    refine ⟨fun b hb place c hc hlt hgt => ?_, fun place c hc hlt hgt => ?_⟩
    · rcases getElem?_concat_eq_some_iff.mp hc with hc | ⟨rfl, -⟩
      · obtain ⟨earlier, hearlier, hrest⟩ := h.latest b hb place c hc hlt hgt
        exact ⟨earlier, List.mem_append_left _ hearlier, hrest⟩
      · exact absurd hgt (h.place_lt hb).not_gt
    · rcases getElem?_concat_eq_some_iff.mp hc with hc | ⟨rfl, -⟩
      · obtain ⟨b, hb, hsame⟩ := hlatest place c hc hlt
        exact ⟨b, List.mem_append_left _ hb, hplace ▸ h.place_lt hb, hsame⟩
      · exact absurd hgt hplace.not_gt

end Bonds

end Token

namespace Tree

theorem leftDeep_ofSpine (first : String) (rest : List (Connective × String)) :
    (ofSpine first rest).LeftDeep := by
  induction rest using List.reverseRecOn with
  | nil => trivial
  | append_singleton rest link ih =>
    rw [ofSpine_concat]
    exact ⟨ih, link.2, rfl⟩

theorem joins_ofSpine (first : String) (rest : List (Connective × String)) :
    (ofSpine first rest).joins = rest.map fun link => (link.1, .leaf link.2) := by
  induction rest using List.reverseRecOn with
  | nil => rfl
  | append_singleton rest link ih =>
    rw [ofSpine_concat, joins, ih, List.map_append, List.map_singleton]

theorem depth_ofSpine (first : String) (rest : List (Connective × String)) :
    (ofSpine first rest).depth = rest.length := by
  rw [← (leftDeep_ofSpine first rest).length_joins, joins_ofSpine, List.length_map]

/-- The tree holds the first operand of tokens and the later ones that find a free connective, each
joined by the latest one that is free. -/
def JoinsLatest (tokens : List Token) (tree : Tree) : Prop :=
  ∃ before clause after bonds, tokens = before ++ .operand clause :: after ∧
    Token.operands before = [] ∧ Token.Bonds tokens before.length bonds ∧
    tree.clauses = clause :: bonds.map (·.clause) ∧
    tree.joins = bonds.map fun b => (b.connective, .leaf b.clause)

end Tree

namespace Growth

open Token

/-- A fold that has read tokens. -/
inductive Follows (tokens : List Token) : Growth → Prop
  /-- There was no operand yet. -/
  | unstarted {waiting : List Connective} (hnone : operands tokens = [])
    (hwaits : Waits tokens [] waiting) : Follows tokens ⟨none, waiting⟩
  /-- The operands that are kept are on the spine. -/
  | started {before after : List Token} {clause : String} {bonds : List Bond}
    {waiting : List Connective} (htokens : tokens = before ++ .operand clause :: after)
    (hbefore : operands before = []) (hbonds : Bonds tokens before.length bonds)
    (hwaits : Waits tokens bonds waiting) :
    Follows tokens
      ⟨some (Tree.ofSpine clause (bonds.map fun b => (b.connective, b.clause))), waiting⟩

theorem Follows.connective {tokens : List Token} {g : Growth} (h : Follows tokens g)
    (c : Connective) : Follows (tokens ++ [.connective c]) (g.push (.connective c)) := by
  cases h with
  | unstarted hnone hwaits =>
    exact .unstarted (by simp [hnone]) (hwaits.connective (by simp) c)
  | started htokens hbefore hbonds hwaits =>
    refine .started (by rw [htokens, List.append_assoc, List.cons_append]) hbefore
      (hbonds.concat nofun) (hwaits.connective (fun b hb => hbonds.taken_lt hb) c)

theorem Follows.operand {tokens : List Token} {g : Growth} (h : Follows tokens g)
    (clause : String) : Follows (tokens ++ [.operand clause]) (g.push (.operand clause)) := by
  cases h with
  | unstarted hnone hwaits =>
    have htokens : tokens ++ [.operand clause] = tokens ++ .operand clause :: [] := rfl
    exact .started htokens hnone (.of_first tokens clause) (hwaits.operand clause)
  | @started before after first bonds waiting htokens hbefore hbonds hwaits =>
    have htokens' : tokens ++ [.operand clause] =
        before ++ .operand first :: (after ++ [.operand clause]) := by
      rw [htokens, List.append_assoc, List.cons_append]
    have hlength := hwaits.length_eq
    cases waiting with
    | nil =>
      refine .started htokens' hbefore (hbonds.concat ?_) (hwaits.operand clause)
      rintro - -
      rw [← hlength]
      exact lt_irrefl _
    | cons c waiting =>
      obtain ⟨taken, htaken, hfree, hlatest, hrest⟩ := hwaits.exists_latest
      let bond : Bond := ⟨c, taken, clause, tokens.length⟩
      have hfirst : before.length < tokens.length := by
        rw [htokens, List.length_append, List.length_cons]
        omega
      have hroom : bonds.length < (connectives tokens).length := by
        rw [← hlength, List.length_cons]
        omega
      have hstarted := Follows.started htokens' hbefore
        (hbonds.take hfirst bond htaken rfl hfree hlatest hroom)
        ((hrest bond rfl).operand clause)
      rw [List.map_append, List.map_singleton, Tree.ofSpine_concat] at hstarted
      exact hstarted

theorem follows_foldl (tokens : List Token) : Follows tokens (tokens.foldl push .empty) := by
  induction tokens using List.reverseRecOn with
  | nil => exact .unstarted rfl .nil
  | append_singleton tokens token ih =>
    rw [List.foldl_append]
    cases token with
    | connective c => exact ih.connective c
    | operand clause => exact ih.operand clause

end Growth

namespace Tree

open Token

/-- Any tokens have a tree exactly if there is an operand among them. The tree is left-deep, and it
holds the first operand and the later ones that find a free connective, each joined by the latest
free one. So it is as deep as operands are kept behind the first, and each connective is taken or
waits. -/
theorem ofTokens?_joins (tokens : List Token) :
    (ofTokens? tokens = none ↔ operands tokens = []) ∧
      (∀ tree, ofTokens? tokens = some tree →
        tree.LeftDeep ∧ tree.JoinsLatest tokens ∧ tree.depth + 1 = tree.clauses.length) ∧
      ((ofTokens? tokens).elim [] joins).length +
        (tokens.foldl Growth.push .empty).waiting.length = (connectives tokens).length := by
  have hfollows := Growth.follows_foldl tokens
  unfold ofTokens?
  generalize tokens.foldl Growth.push .empty = g at hfollows ⊢
  cases hfollows with
  | unstarted hnone hwaits =>
    exact ⟨iff_of_true rfl hnone, nofun, hwaits.length_eq⟩
  | @started before after clause bonds waiting htokens hbefore hbonds hwaits =>
    have hsome : operands tokens ≠ [] := by simp [htokens, operands, clause?]
    refine ⟨iff_of_false nofun hsome, ?_, ?_⟩
    · intro tree htree
      cases htree
      refine ⟨leftDeep_ofSpine _ _,
        ⟨before, clause, after, bonds, htokens, hbefore, hbonds, ?_, ?_⟩, ?_⟩
      · rw [clauses_ofSpine, List.map_map]
        rfl
      · rw [joins_ofSpine, List.map_map]
        rfl
      · rw [depth_ofSpine, clauses_ofSpine, List.length_cons, List.length_map, List.length_map,
          List.length_map]
    · rw [Option.elim_some, joins_ofSpine, List.length_map, List.length_map]
      exact hwaits.length_eq

/-- A connective in front of everything joins the second of three operands in a row, and the third
finds none. Of two connectives in a row the first one is left. -/
theorem ofTokens?_joins_revived :
    let tokens : List Token := [.connective .or, .operand "a=1", .operand "b=2", .operand "c=3",
      .connective .or, .connective .and, .operand "d=4"]
    let tree := join .and (join .or (.leaf "a=1") (.leaf "b=2")) (.leaf "d=4")
    ofTokens? tokens = some tree ∧ tree.JoinsLatest tokens ∧
      (tokens.foldl Growth.push .empty).waiting.length = 1 := by
  intro tokens tree
  have htree : ofTokens? tokens = some tree := by decide
  obtain ⟨-, hjoins, hcount⟩ := ofTokens?_joins tokens
  refine ⟨htree, (hjoins tree htree).2.1, ?_⟩
  rw [htree] at hcount
  exact Nat.add_left_cancel (n := 2) hcount

end Tree

end Verdict
