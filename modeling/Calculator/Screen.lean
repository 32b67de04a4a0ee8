import Calculator.Desk

/-! # The screen -/
namespace Calculator.Screen

def dash : String := "—"

/-- The labels of a drawn screen from top to bottom. A failure is only shown when there is one, and
the derivation only while its panel is open. -/
def labels (d : Desk) : List String :=
  ["Calculatrice de base", "Entrée :", "Affichage :"]
    ++ (if d.error = "" then [] else [d.error])
    ++ ["Résultat :", if d.shown = "" then dash else d.shown]
    ++ (if d.panelOpen then
      ["Jetons :", d.derivation.tokens, "Réductions :", d.derivation.steps] else [])

end Calculator.Screen
