import OsCoursework.Server.Bounds

/-!
# The end of the server

When the receive is interrupted, the turn of the loop goes on with the request that is still in
`request`: it is answered a second time.
-/

open OsCoursework.Cstring

namespace OsCoursework.Server

theorem pushHistory_numUndos {s t : EditingString} (h : pushHistory s = some t) : t.numUndos = s.numUndos := by
  unfold pushHistory at h
  obtain ⟨prev3, -, h⟩ := Option.bind_eq_some_iff.mp h
  obtain ⟨prev2, -, h⟩ := Option.bind_eq_some_iff.mp h
  obtain ⟨prev1, -, rfl⟩ := Option.map_eq_some_iff.mp h
  rfl

/-- The request changes nothing where it finds this state. -/
def Idle (s : EditingString) (request : ClientRequest) : Prop :=
  (request.command = letter 'i' ∨ request.command = letter 'd' → request.index > s.len) ∧
  (request.command = letter 'u' → s.numUndos ≤ 0)

theorem edit_cases {s t : EditingString} {index : Int} {status : Nat}
    {move : EditingString → Option (Nat × EditingString)}
    (hmove : ∀ u status t, move u = some (status, t) → t.numUndos = u.numUndos + 1)
    (h : (if index > s.len then some (1, s) else (pushHistory s).bind move) = some (status, t)) :
    (index > s.len ∧ t = s) ∨ (index ≤ s.len ∧ t.numUndos = s.numUndos + 1) := by
  split_ifs at h with hgt
  · cases h
    exact Or.inl ⟨hgt, rfl⟩
  · obtain ⟨u, hpush, h⟩ := Option.bind_eq_some_iff.mp h
    right
    rw [hmove u status t h, pushHistory_numUndos hpush]
    exact ⟨not_lt.mp hgt, rfl⟩

theorem insert_cases {s t : EditingString} {index : Int} {character : CChar} {status : Nat}
    (h : insert s index character = some (status, t)) :
    (index > s.len ∧ t = s) ∨ (index ≤ s.len ∧ t.numUndos = s.numUndos + 1) := by
  unfold insert at h
  refine edit_cases ?_ h
  intro u status t h
  split_ifs at h
  cases h
  rfl

theorem delete_cases {s t : EditingString} {index : Int} {status : Nat}
    (h : delete s index = some (status, t)) :
    (index > s.len ∧ t = s) ∨ (index ≤ s.len ∧ t.numUndos = s.numUndos + 1) := by
  unfold delete at h
  refine edit_cases ?_ h
  intro u status t h
  split_ifs at h
  cases h
  rfl

theorem undo_cases {s t : EditingString} {status : Nat} (h : undo s = some (status, t)) :
    (s.numUndos ≤ 0 ∧ t = s) ∨ (0 < s.numUndos ∧ t.numUndos = s.numUndos - 1) := by
  unfold undo at h
  by_cases hpos : s.numUndos > 0
  · rw [if_pos hpos] at h
    obtain ⟨string, -, h⟩ := Option.bind_eq_some_iff.mp h
    obtain ⟨prev1, -, h⟩ := Option.bind_eq_some_iff.mp h
    obtain ⟨prev2, -, h⟩ := Option.map_eq_some_iff.mp h
    cases h
    exact Or.inr ⟨hpos, rfl⟩
  · rw [if_neg hpos] at h
    cases h
    exact Or.inl ⟨not_lt.mp hpos, rfl⟩

theorem dispatch_cases {s t : EditingString} {request : ClientRequest} {status : Nat}
    (h : dispatch s request = some (status, t)) :
    (Idle s request ∧ t = s) ∨ (¬ Idle s request ∧ t.numUndos ≠ s.numUndos) := by
  have hne := letters_ne
  unfold dispatch at h
  unfold Idle
  split_ifs at h with hi hd hu hr
  · rcases insert_cases h with ⟨hgt, ht⟩ | ⟨hle, ht⟩
    · exact Or.inl ⟨⟨fun _ => hgt, fun hu => absurd (hu.symm.trans hi) hne.2.1⟩, ht⟩
    · exact Or.inr ⟨fun hidle => absurd (hidle.1 (Or.inl hi)) (not_lt.mpr hle), by omega⟩
  · rcases delete_cases h with ⟨hgt, ht⟩ | ⟨hle, ht⟩
    · exact Or.inl ⟨⟨fun _ => hgt, fun hu => absurd (hu.symm.trans hd) hne.2.2.1⟩, ht⟩
    · exact Or.inr ⟨fun hidle => absurd (hidle.1 (Or.inr hd)) (not_lt.mpr hle), by omega⟩
  · rcases undo_cases h with ⟨hle, ht⟩ | ⟨hpos, ht⟩
    · exact Or.inl ⟨⟨fun hid => absurd hid (not_or.mpr ⟨hi, hd⟩), fun _ => hle⟩, ht⟩
    · exact Or.inr ⟨fun hidle => absurd (hidle.2 hu) (not_le.mpr hpos), by omega⟩
  · cases h
    exact Or.inl ⟨⟨fun hid => absurd hid (not_or.mpr ⟨hi, hd⟩), fun h => absurd h hu⟩, rfl⟩
  · cases h
    exact Or.inl ⟨⟨fun hid => absurd hid (not_or.mpr ⟨hi, hd⟩), fun h => absurd h hu⟩, rfl⟩

theorem shutdown_cases {s : EditingString} {request : ClientRequest} {sent : List ServerResponse}
    {line : List CChar × Int} (h : shutdown s request = some (sent, line)) :
    ∃ response status t u, sent = [response] ∧ ready s = some u ∧ dispatch u request = some (status, t) ∧
      line = (text t.string.toList, t.numUndos) := by
  unfold shutdown turn answer finalPrint at h
  obtain ⟨r, hturn, h⟩ := Option.bind_eq_some_iff.mp h
  obtain ⟨u, hready, hturn⟩ := Option.bind_eq_some_iff.mp hturn
  obtain ⟨⟨status, t⟩, hdispatch, hturn⟩ := Option.bind_eq_some_iff.mp hturn
  obtain ⟨response, -, rfl⟩ := Option.map_eq_some_iff.mp hturn
  obtain ⟨line', hline, heq⟩ := Option.map_eq_some_iff.mp h
  obtain ⟨rfl, rfl⟩ := Prod.mk.inj heq
  split_ifs at hline
  cases hline
  exact ⟨response, status, t, u, rfl, hready, hdispatch, rfl⟩

/-- **The last request is answered a second time.** A further response is always sent, and the text and the
count are those before it only when the request changes nothing the second time. -/
theorem shutdown_answers_again : ∀ argStr argv1 s, start argStr argv1 = some s →
    ∀ requests last responses s', serve s (requests ++ [last]) = some (responses, s') →
      (∀ line, shutdown s' last ≠ some ([], line)) ∧
      ∀ u, ready s' = some u → ∀ sent line, shutdown s' last = some (sent, line) →
        (line = (text u.string.toList, u.numUndos) ↔ Idle u last) := by
  intro _ _ _ _ _ last _ s' _
  constructor
  · intro line h
    obtain ⟨response, _, _, _, hsent, -⟩ := shutdown_cases h
    cases hsent
  · intro u hu sent line h
    obtain ⟨response, status, t, u', -, hready, hdispatch, rfl⟩ := shutdown_cases h
    obtain rfl : u' = u := Option.some.inj (hready.symm.trans hu)
    rcases dispatch_cases hdispatch with ⟨hidle, rfl⟩ | ⟨hidle, hcount⟩
    · exact iff_of_true rfl hidle
    · exact iff_of_false (fun heq => hcount (congrArg Prod.snd heq)) hidle

/-- Three inserts, and the interrupt. -/
theorem shutdown_inserts_again : ∃ s, start blank (ascii "ab") = some s ∧
    ∃ responses s', serve s (List.replicate 3 ⟨letter 'i', 0, letter 'x'⟩) = some (responses, s') ∧
      text s'.string.toList = ascii "xxxab" ∧ s'.numUndos = 3 ∧
      shutdown s' ⟨letter 'i', 0, letter 'x'⟩ = some ([⟨0, ascii "OK"⟩], ascii "xxxxab", 4) := by
  refine ⟨_, start_blank _ (by decide +kernel), ?_⟩
  have hbefore : (serve { blank with string := initialString (ascii "ab"), len := strlen (ascii "ab") }
      (List.replicate 3 ⟨letter 'i', 0, letter 'x'⟩)).map (fun r => (text r.2.string.toList, r.2.numUndos)) =
      some (ascii "xxxab", 3) := by decide +kernel
  have hafter : (serve { blank with string := initialString (ascii "ab"), len := strlen (ascii "ab") }
      (List.replicate 3 ⟨letter 'i', 0, letter 'x'⟩)).map (fun r =>
        shutdown r.2 ⟨letter 'i', 0, letter 'x'⟩) = some (some ([⟨0, ascii "OK"⟩], ascii "xxxxab", 4)) := by
    decide +kernel
  obtain ⟨r, hr, heq⟩ := Option.map_eq_some_iff.mp hbefore
  rw [hr, Option.map_some] at hafter
  obtain ⟨htext, hcount⟩ := Prod.mk.inj heq
  exact ⟨r.1, r.2, hr, htext, hcount, Option.some.inj hafter⟩

theorem shutdown_answers_again_insert : ∃ s, start blank (ascii "ab") = some s ∧
    ∃ responses s' u, serve s [⟨letter 'i', 0, letter 'x'⟩] = some (responses, s') ∧ ready s' = some u ∧
      (∀ line, shutdown s' ⟨letter 'i', 0, letter 'x'⟩ ≠ some ([], line)) ∧
      ∀ sent line, shutdown s' ⟨letter 'i', 0, letter 'x'⟩ = some (sent, line) →
        line ≠ (text u.string.toList, u.numUndos) := by
  have hs := start_blank (ascii "ab") (by decide +kernel)
  have hrun : ((serve { blank with string := initialString (ascii "ab"), len := strlen (ascii "ab") }
      [⟨letter 'i', 0, letter 'x'⟩]).bind fun r => (ready r.2).map fun u => u.len) = some 3 := by decide +kernel
  obtain ⟨r, hr, hready⟩ := Option.bind_eq_some_iff.mp hrun
  obtain ⟨u, hu, hlen⟩ := Option.map_eq_some_iff.mp hready
  obtain ⟨hanswered, hline⟩ := shutdown_answers_again _ _ _ hs [] _ _ _ hr
  refine ⟨_, hs, r.1, r.2, u, hr, hu, hanswered, fun sent line h heq => ?_⟩
  have hgt := ((hline u hu sent line h).mp heq).1 (Or.inl rfl)
  rw [hlen] at hgt
  cases hgt

end OsCoursework.Server
