import CtpTrade.Platform

/-!
# Shared data

The records and constants of `PublicDataStruct.h`, and the depth market data
record of the exchange interface with the fields this program reads or writes.
-/

namespace CtpTrade

def techSignalMin : Int := -15
def techSignalSellIntense : Int := -15
def techSignalSell : Int := -10
def techSignalNothing : Int := 0
def techSignalBuy : Int := 10
def techSignalBuyIntense : Int := 15
-- The header gives the maximum the value of the minimum.
def techSignalMax : Int := -15

def techReasonNothing : Int := 1
def techReasonGoldfork : Int := 4
def techReasonDeadfork : Int := 5
def techReasonLong : Int := 6
def techReasonShort : Int := 7

/-- The macro `SIGNAL_ISBUY`. -/
def signalIsBuy (x : Int) : Bool := x > 0

/-- The macro `SIGNAL_ISSELL`. -/
def signalIsSell (x : Int) : Bool := x < 0

instance neZero31 : NeZero 31 := ⟨by decide⟩
instance neZero9 : NeZero 9 := ⟨by decide⟩

abbrev InstrumentIDType := CharArray 31
abbrev ExchangeIDType := CharArray 9
abbrev DateType := CharArray 9
abbrev TimeType := CharArray 9

/-- `mtk_data`, the depth market data of one tick. -/
structure MtkData where
  tradingDay : DateType := default
  instrumentID : InstrumentIDType
  exchangeID : ExchangeIDType := default
  lastPrice : ℚ := 0
  volume : Int32
  updateTime : TimeType
  bidPrice1 : ℚ := 0
  bidVolume1 : Int32 := 0
  askPrice1 : ℚ := 0
  askVolume1 : Int32 := 0
  actionDay : DateType := default
  deriving DecidableEq

/-- `candle_bar`. Its constructor clears the whole record. -/
structure CandleBar where
  barName : InstrumentIDType := default
  barEcg : ExchangeIDType := default
  tradeDay : Nat := 0
  tradeTime : Nat := 0
  openPrice : ℚ := 0
  highPrice : ℚ := 0
  lowPrice : ℚ := 0
  closePrice : ℚ := 0
  changePoint : ℚ := 0
  changePercent : ℚ := 0
  volumeSize : UInt64 := 0
  deriving DecidableEq

instance : Inhabited CandleBar := ⟨{}⟩

/-- `ma_attribute` with the type tag it inherits from `tech_attribute`. -/
structure MaAttribute where
  attributeType : Int := 0
  flagGoldfork : Int := 0
  flagDeadfork : Int := 0
  flagLong : Int := 0
  flagShort : Int := 0
  periodCycle : List Int := []
  deriving DecidableEq

/-- `trade_handle`. The mutex is held for whole calls, so only the flag is data. -/
structure TradeHandle where
  readyFlag : Bool := false
  deriving DecidableEq

namespace TradeHandle

/-- `wait_handle` can return in this state; otherwise the caller keeps sleeping. -/
def waitHandle (h : TradeHandle) : Bool := h.readyFlag

def notifyHandle (_ : TradeHandle) : TradeHandle := ⟨true⟩

end TradeHandle

end CtpTrade
