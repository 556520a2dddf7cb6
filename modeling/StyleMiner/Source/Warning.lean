import StyleMiner.Text.Ascii

/-! Warnings about input that was skipped. A log keeps each wording once, in the order in which the
wordings first came up. -/

namespace StyleMiner

structure Warning where
  component : Text
  message : Text
  deriving DecidableEq, Repr

namespace Warning

def render (w : Warning) : Text := '[' :: w.component ++ "] ".toList ++ w.message

/-- enters a warning into a log unless its wording is there already -/
def enter (log : List Text) (w : Warning) : List Text :=
  if w.render ∈ log then log else log ++ [w.render]

/-- the log of a run of warnings -/
def log (ws : List Warning) : List Text := ws.foldl enter []

theorem enter_nodup {log : List Text} (h : log.Nodup) (w : Warning) : (enter log w).Nodup := by
  unfold enter
  split
  · exact h
  · next hn => exact List.nodup_append.2 ⟨h, by simp, fun a ha b hb => by
      rw [List.mem_singleton] at hb; subst hb; exact fun he => hn (he ▸ ha)⟩

end Warning
end StyleMiner
