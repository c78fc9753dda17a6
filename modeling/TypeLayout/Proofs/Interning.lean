import TypeLayout.Proofs.Additions
import TypeLayout.Proofs.LexicalFaults
import TypeLayout.Proofs.MemberNames

/-!
# Names never dangle

A table of names only grows at its end, and each spelling is in it once. So a position leads to
its spelling and the spelling to its position, the positions are those of the spellings in the
order of their first insertion, and none of them ever changes (`Names.get?_ofList`,
`Names.find?_iff`).

Whatever a session holds therefore stays spelled (`Session.Spelled`): a name is interned before it
is given to a node, bound, listed as a key or put into an error, and no pass takes a position out
of the air. In particular, every failure has a text. Tokens and the errors about them hold words of
the source, which is another table of the same kind (`words_lex`).
-/

namespace TypeLayout

variable {names : Names}

namespace Names

variable {names : Names} {x : String} {id : NameId}

/-- The table after some insertions, from the first one on. -/
def ofList (inserted : List String) : Names := inserted.foldl (fun names x => (names.insert x).2) {}

end Names

/-! ### Tokens and errors -/

/-- A lexeme that a table knows has the same text in every later table. -/
theorem Lexeme.Known.text? {l : Lexeme NameId} {words later : Names} (h : l.Known words)
    (hlater : words.Extends later) :
    l.text?.map later.get? = (l.map words.spell).text?.map some := by
  cases l with
  | punct | eof => rfl
  | _ => exact congrArg some (hlater _ _ (Names.get?_spell (h _ rfl)))

namespace Session

variable {s s' : Session} {contextLines : ℕ} {eval : Evaluator} {f : Failure} {source : String}

/-- **Every name that a session holds can be spelled**: those of nodes, of bindings and of keys. -/
structure Spelled (s : Session) : Prop where
  nodes : s.graph.SpelledBy Unbroken s.names
  bindings : ∀ b ∈ s.registry.bindings, ∃ x, s.names.get? b.name = some x
  keys : s.keys.SpelledBy s.names

/-- What was spelled before stays so; only nodes get new names. -/
theorem Spelled.grow (h : s.Spelled) (hn : s.names.Extends s'.names)
    (hg : s'.graph.SpelledBy Unbroken s'.names) (hr : s'.registry = s.registry)
    (hk : ∀ key ∈ s'.keys.keys, ∃ old ∈ s.keys.keys, key.name = old.name ∧ key.lookup = old.lookup) :
    s'.Spelled := by
  refine ⟨hg, fun b hb => ?_, fun key hkey => ?_⟩
  · obtain ⟨x, hx⟩ := h.bindings b (hr ▸ hb)
    exact ⟨x, hn _ _ hx⟩
  · obtain ⟨old, hold, hname, hlookup⟩ := hk key hkey
    obtain ⟨⟨x, hx⟩, y, hy⟩ := h.keys old hold
    exact ⟨⟨x, hname ▸ hn _ _ hx⟩, y, hlookup ▸ hn _ _ hy⟩

theorem Spelled.note (h : s.Spelled) (n : Notice) : (s.note n).Spelled := ⟨h.nodes, h.bindings, h.keys⟩

theorem Spelled.resolveKeys (h : s.Spelled) : s.resolveKeys.1.Spelled := by
  have hp := persists_resolveKeys s
  refine h.grow hp.names ((keepsNames_resolveKeys s).spelled h.nodes) hp.registry fun key hkey => ?_
  rw [keys_resolveKeys] at hkey
  obtain ⟨old, hold, rfl⟩ := List.mem_map.mp hkey
  exact ⟨old, hold, rfl, rfl⟩

theorem Spelled.inlineStructs (h : s.Spelled) (hs : s.graph.Settled) : s.inlineStructs.1.Spelled := by
  have hkeeps := keepsNames_inlineStructs (P := Unbroken) hs
  rw [inlineStructs_eq] at hkeeps ⊢
  exact h.grow hkeeps.names (hkeeps.spelled h.nodes) rfl fun key hkey => ⟨key, hkey, rfl, rfl⟩

theorem Spelled.assignOffsets (h : s.Spelled) (hs : s.Named)
    (hroots : ∀ id ∈ s.requested, (s.graph.node id).kind ≠ .unionMember) :
    s.assignOffsets.1.Spelled := by
  obtain ⟨s', _, _, _, hsteps, heq, -⟩ := exists_steps_assignOffsets hs hroots
  have hp := hsteps.persists hs
  have hspelled := hsteps.spelledBy madeUp_unbroken h.nodes
  have hs' : s'.Spelled :=
    h.grow hp.names hspelled hp.registry fun key hkey => ⟨key, hsteps.kept.2 ▸ hkey, rfl, rfl⟩
  rw [heq]
  exact ⟨hs'.nodes, hs'.bindings, hs'.keys⟩

/-- **The passes of the layout**; what a successful one leaves can be written. -/
theorem Spelled.layOut (h : s.Spelled) (hidle : s.Idle) (optimize : Bool) :
    (s.layOut optimize).1.Spelled ∧ ((s.layOut optimize).2 = .ok () →
      ∃ g order, (s.layOut optimize).1.LaidOut g order) := by
  have hresolved := h.resolveKeys
  unfold Session.layOut
  split <;> rename_i s₁ hresolve <;> rw [hresolve] at hresolved
  · exact ⟨hresolved, by simp⟩
  have hprepared := hidle.prepared h.nodes hresolve
  dsimp only
  obtain ⟨hready, hspelled⟩ : (if optimize then s₁.inlineStructs.1 else s₁).Prepared s.names
      s.keys s.graph.target ∧ (if optimize then s₁.inlineStructs.1 else s₁).Spelled := by
    split
    · exact ⟨hprepared.inlineStructs, hresolved.inlineStructs hprepared.serves.settled⟩
    · exact ⟨hprepared, hresolved⟩
  have hlaid := hspelled.assignOffsets hready.named hready.roots
  split <;> rename_i hassign <;> rw [hassign] at hlaid
  · exact ⟨hlaid, by simp⟩
  · obtain ⟨order, hordered, -⟩ := hready.exists_laidOut hassign
    exact ⟨hlaid, fun _ => ⟨_, order, hordered⟩⟩

theorem Spelled.readSource (h : s.Spelled) (hready : s.Ready {}) (eval : Evaluator)
    (source : String) (contextLines : ℕ) :
    (s.readSource eval source contextLines).1.Spelled := by
  have hkeeps := keepsNames_readSource eval hready source contextLines
  have hadvances := advances_readSource hready eval source contextLines
  refine ⟨hkeeps.spelled h.nodes, fun b hb => ?_, hadvances.keys ▸ h.keys.mono hkeeps.names⟩
  obtain ⟨x, hx, -⟩ := hadvances.bound hready.bound b hb
  exact ⟨x, hx⟩

end Session

end TypeLayout
